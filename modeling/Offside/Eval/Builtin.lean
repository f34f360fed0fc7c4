import Offside.Eval.Line
import Offside.Eval.Machine

/-!
# Builtins

`print` writes the text of its first argument and a line feed. `input` writes the text of its
first argument, if it has one, and reads a line.
-/

set_option autoImplicit false

namespace Offside

namespace Builtin

/-- The names of the builtins, in the order in which a session declares them. -/
def names : List String := ["print", "input"]

/-- Writes the text of the first argument and a line feed, in one piece. -/
def print (args : List Value) : Run Value := do
  let text := (args.head?.map Value.text).getD []
  Run.write (text ++ [lineFeed])
  pure .nil

/-- Reads a line: nil at the end of the input, and otherwise what the line stands for. Where the
input fails, what was left of it is lost. -/
def readLine : Run Value := fun m =>
  let (line, left) := m.input.splitLine
  let m := { m with input := left }
  if line.endsLine then .ok (.ofLine line.trimLineEnd) m
  else if m.inputBroken then .error .readFailed m
  else if line.isEmpty then .ok .nil m
  else .ok (.ofLine line.trimLineEnd) m

/-- Writes the prompt, if one is given, and reads a line. -/
def input (args : List Value) : Run Value := do
  match args with
  | [] => readLine
  | prompt :: _ =>
      Run.write prompt.text
      readLine

/-- Runs the builtin of the given name; any other name does nothing. -/
def run (name : String) (args : List Value) : Run Value :=
  if name = "print" then print args
  else if name = "input" then input args
  else pure .nil

end Builtin

end Offside
