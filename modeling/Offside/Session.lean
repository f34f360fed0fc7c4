import Offside.Eval.Step
import Offside.Tree.Grammar

/-!
# Sessions

A session runs programs one after the other on one machine. What a program declared before it
stopped is still there for the next one.
-/

set_option autoImplicit false

namespace Offside

/-- What a session decides about its programs. -/
structure Options where
  /-- Whether a program's last statement, if it is an expression, gives its result. -/
  echo : Bool
  /-- How deeply calls may nest. -/
  maxDepth : Int
  deriving DecidableEq, Repr, Inhabited

namespace Options

/-- The depth of calls that is permitted unless another one is chosen. -/
def defaultMaxDepth : Int := 10000

end Options

/-- A machine with its options. -/
structure Session where
  /-- What the session decides. -/
  options : Options
  /-- The machine as the last program left it. -/
  machine : Machine
  deriving Inhabited

namespace Session

/-- The scopes of a new session: a root with the builtins. -/
def initialScopes : Scopes :=
  ⟨#[⟨[("input", .builtin 1 "input"), ("print", .builtin 0 "print")], none⟩]⟩

/-- The scopes of a new session are those in which the builtins are declared one after the
other. -/
theorem withBuiltins_names : Scopes.withBuiltins Builtin.names = .ok initialScopes := by rfl

/-- A new session that reads the given input and can make the given number of writes. -/
def start (options : Options) (input : Text) (inputBroken : Bool) (writes : Option Nat) :
    Session :=
  { options
    machine :=
      { scopes := initialScopes, depth := 0, input, inputBroken, output := [],
        writesLeft := writes, checksLeft := none, nextId := 2, journal := [] } }

/-- Runs the statements of a program. The result is nil unless a `return` among them gives
another one, or the last of them is an expression that is to be echoed. -/
def runStatements (echo : Bool) (ev : Node → Run Value) :
    (result : Value) → List Node → Run Value
  | result, [] => do
      Run.log (.finished result.kind)
      pure result
  | _, .ret _ value :: _ => ev value
  | _, statement :: rest => do
      let v ← ev statement
      runStatements echo ev (if echo && statement.isExpression then v else .nil) rest

/-- Runs a program in the root scope. -/
def runProgram (options : Options) (fuel : Nat) (program : List Node) : Run Value := do
  Run.log (.started program.length)
  runStatements options.echo (eval options.maxDepth fuel 0) .nil program

/-- The statements of a program's tree. -/
def statementsOf : Node → List Node
  | .block _ statements => statements
  | n => [n]

/-- Runs the tree of a program, which is cancelled after the given number of questions. -/
def runTree (s : Session) (fuel : Nat) (checks : Option Nat) (tree : Node) :
    Except Halt Value × Session :=
  let m := { s.machine with checksLeft := checks }
  match runProgram s.options fuel (statementsOf tree) m with
  | .ok v m => (.ok v, { s with machine := m })
  | .error h m => (.error h, { s with machine := m })

/-- The journal of reading a source, the latest line first. -/
def journalOf (p : Parse) : List JournalEntry :=
  let blocks := p.notes.reverse.map fun n => .block n.pos n.count
  match p.outcome with
  | .ok tree => .parsed (statementsOf tree).length :: blocks
  | .error _ => blocks

/-- Reads a program and runs it, to be cancelled after the given number of questions. -/
def runText (s : Session) (fuel : Nat) (checks : Option Nat) (source : Text) :
    Except Halt Value × Session :=
  let parse := Parse.ofText source
  let read := { s with machine.journal := journalOf parse ++ s.machine.journal }
  match parse.outcome with
  | .ok tree => read.runTree fuel checks tree
  | .error h => (.error h, read)

/-- The value of a name in the root scope. -/
def global? (s : Session) (name : String) : Option Value :=
  (s.machine.scopes.get 0 name).toOption

/-- The number of live frames. -/
def frameCount (s : Session) : Nat := s.machine.scopes.count

/-- Takes out what was written and what was journalled since the last time, in order. -/
def flush (s : Session) : Text × List JournalEntry × Session :=
  (s.machine.written, s.machine.journal.reverse,
    { s with machine := { s.machine with output := [], journal := [] } })

/-- Fuel beyond what any run can use up in a lifetime. -/
def ampleFuel : Nat := Nat.pow 2 62

end Session

end Offside
