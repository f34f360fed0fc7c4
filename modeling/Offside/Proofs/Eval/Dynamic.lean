import Offside.Proofs.Session.Steps

/-!
# Dynamic scoping over a stack of maps

The plain meaning of programs, without slots, parents and handles. The state holds a stack of maps
from names to values, the innermost first. A call pushes an empty map, declares its parameters in
it, and pops it however its body ends; a declaration goes to the innermost map; a lookup and an
assignment go to the innermost map of the whole stack that has the name. Calls in progress are not
counted: their number is the height of the stack above the bottom map.
-/

set_option autoImplicit false

namespace Offside

namespace Dynamic

/-- A map from names to values. -/
abbrev Bindings := String → Option Value

/-- The map without names. -/
def Bindings.empty : Bindings := fun _ => none

/-- A map with one name bound anew. -/
def Bindings.bind (b : Bindings) (name : String) (value : Value) : Bindings :=
  fun n => if n = name then some value else b n

/-- The state of a plain run. -/
structure State where
  /-- The maps, the innermost first. -/
  stack : List Bindings
  /-- The input still to be read. -/
  input : Text
  /-- Whether reading beyond the input fails. -/
  inputBroken : Bool
  /-- The pieces written so far, the latest first. -/
  output : List Text
  /-- How many more writes succeed, if there is a limit. -/
  writesLeft : Option Nat
  /-- How many more questions find the run not cancelled, if it is going to be. -/
  checksLeft : Option Nat
  /-- The identity that the next function gets. -/
  nextId : Nat

/-- A computation on the plain state. -/
abbrev Act (α : Type) := EStateM Halt State α

/-- Asks whether the run is cancelled. -/
def check : Act Unit := fun st =>
  match st.checksLeft with
  | none => .ok () st
  | some 0 => .error .cancelled st
  | some (n + 1) => .ok () { st with checksLeft := some n }

/-- A new identity for a function. -/
def freshId : Act Nat := fun st => .ok st.nextId { st with nextId := st.nextId + 1 }

/-- The value of a name in the innermost map that has it. -/
def lookup (name : String) : Act Value := fun st =>
  match st.stack.findSome? fun b => b name with
  | some v => .ok v st
  | none => .error (.fault (.undeclaredVariable name)) st

/-- Declares a name in the innermost map, which must not have it. -/
def declare (name : String) (value : Value) : Act Unit := fun st =>
  match st.stack with
  | [] => .ok () st
  | b :: outer =>
      if (b name).isSome then .error (.fault (.duplicateDeclaration name)) st
      else .ok () { st with stack := b.bind name value :: outer }

/-- A stack with a new value for a name in the innermost map that has it. -/
def reassigned (name : String) (value : Value) : List Bindings → Option (List Bindings)
  | [] => none
  | b :: outer =>
      if (b name).isSome then some (b.bind name value :: outer)
      else (reassigned name value outer).map (b :: ·)

/-- Gives a name a new value in the innermost map that has it. -/
def assign (name : String) (value : Value) : Act Unit := fun st =>
  match reassigned name value st.stack with
  | some stack => .ok () { st with stack }
  | none => .error (.fault (.undeclaredVariable name)) st

/-- Runs a body with an empty map pushed, and pops the innermost map however the body ends. -/
def inEmptyMap {α : Type} (body : Act α) : Act α := fun st =>
  match body { st with stack := .empty :: st.stack } with
  | .ok v st' => .ok v { st' with stack := st'.stack.tail }
  | .error h st' => .error h { st' with stack := st'.stack.tail }

/-- Declares parameters with their arguments. -/
def declareAll : List (String × Value) → Act Unit
  | [] => pure ()
  | (name, value) :: rest => do
      declare name value
      declareAll rest

/-- Writes one piece of output. -/
def write (piece : Text) : Act Unit := fun st =>
  match st.writesLeft with
  | none => .ok () { st with output := piece :: st.output }
  | some 0 => .error .writeFailed st
  | some (n + 1) => .ok () { st with output := piece :: st.output, writesLeft := some n }

/-- Reads a line: nil at the end of the input, and otherwise what the line stands for. -/
def readLine : Act Value := fun st =>
  let (line, left) := st.input.splitLine
  let st := { st with input := left }
  if line.endsLine then .ok (.ofLine line.trimLineEnd) st
  else if st.inputBroken then .error .readFailed st
  else if line.isEmpty then .ok .nil st
  else .ok (.ofLine line.trimLineEnd) st

/-- Runs the builtin of the given name. -/
def builtin (name : String) (args : List Value) : Act Value :=
  match name, args with
  | "print", [] => do write [lineFeed]; pure .nil
  | "print", v :: _ => do write (v.text ++ [lineFeed]); pure .nil
  | "input", [] => readLine
  | "input", v :: _ => do write v.text; readLine
  | _, _ => pure .nil

/-- An operator's outcome. -/
def operate (o : Except Halt Value) : Act Value := fun st =>
  match o with
  | .ok v => .ok v st
  | .error h => .error h st

/-- Runs a statement list: the value of the `return` that ended it, if one did. -/
def block (ev : Node → Act Value) : List Node → Act (Option Value)
  | [] => pure none
  | .ret _ value :: _ => do return some (← ev value)
  | statement :: rest => do
      let _ ← ev statement
      block ev rest

/-- Evaluates arguments from left to right. -/
def arguments (ev : Node → Act Value) : List Node → Act (List Value)
  | [] => pure []
  | arg :: rest => do
      let v ← ev arg
      return v :: (← arguments ev rest)

/-- Runs the body of the first branch whose condition holds. -/
def branches (ev : Node → Act Value) : Branches → Act Value
  | .done => pure .nil
  | .otherwise _ body => do
      let _ ← block ev body
      pure .nil
  | .guarded condition _ body rest => do
      if (← ev condition).truthy then
        let _ ← block ev body
        pure .nil
      else branches ev rest

/-- Gives the result of the first arm that fits the subject, or nil. -/
def arms (ev : Node → Act Value) (subject : Value) : Arms → Act Value
  | .done => pure .nil
  | .wildcard _ result _ => ev result
  | .pattern _ pattern result rest => do
      if subject.equal (← ev pattern) then ev result
      else arms ev subject rest

/-- Calls what the name stands for. -/
def call (maxDepth : Int) (ev : Node → Act Value) (tok : Token) (name : String)
    (args : List Node) : Act Value := do
  check
  match ← lookup name with
  | .builtin _ b => do
      let vs ← arguments ev args
      builtin b vs
  | .function f =>
      if args.length < f.params.length then
        throw (.fault (.missingArguments name f.params.length args.length tok.pos))
      else do
        let vs ← arguments ev args
        let st ← get
        if maxDepth ≤ (st.stack.length : Int) - 1 then
          throw (.fault (.tooDeep name maxDepth tok.pos))
        else
          inEmptyMap do
            declareAll (f.params.zip vs)
            let v ← block ev f.body
            pure (v.getD .nil)
  | v => throw (.fault (.notCallable name v.kind.name tok.pos))

/-- Evaluates a node. -/
def eval (maxDepth : Int) : (fuel : Nat) → Node → Act Value
  | 0, _ => throw .outOfFuel
  | fuel + 1, node =>
      let ev := eval maxDepth fuel
      match node with
      | .missing => throw (.defect .missingNode)
      | .block _ statements => do return (← block ev statements).getD .nil
      | .declaration _ name value => do
          declare name (← ev value)
          pure .nil
      | .assignment _ name value => do
          assign name (← ev value)
          pure .nil
      | .reference _ name => lookup name
      | .integer _ n => pure (.int n)
      | .float _ x => pure (.float x)
      | .string _ t => pure (.string t)
      | .boolean _ b => pure (.bool b)
      | .nil _ => pure .nil
      | .unary tok op operand => do operate (Operator.unary op tok.pos (← ev operand))
      | .binary tok op left right => do
          let l ← ev left
          let r ← ev right
          operate (Operator.binary op tok.pos l r)
      | .definition _ name params _ body => do
          declare name (.function ⟨← freshId, name, params, body⟩)
          pure .nil
      | .call tok name args => call maxDepth ev tok name args
      | .conditional _ bs => branches ev bs
      | .loop _ condition _ body => do
          check
          if (← ev condition).truthy then
            let _ ← block ev body
            ev node
          else pure .nil
      | .ret _ value => ev value
      | .select _ subject as => do arms ev (← ev subject) as

/-- Runs the statements of a program. -/
def statements (echo : Bool) (ev : Node → Act Value) : (result : Value) → List Node → Act Value
  | result, [] => pure result
  | _, .ret _ value :: _ => ev value
  | _, statement :: rest => do
      let v ← ev statement
      statements echo ev (if echo && statement.isExpression then v else .nil) rest

/-- The state in which a session starts: one map, with the builtins. -/
def start (input : Text) (inputBroken : Bool) (writes : Option Nat) : State :=
  { stack := [(Bindings.empty.bind "print" (.builtin 0 "print")).bind "input" (.builtin 1 "input")]
    input, inputBroken, output := [], writesLeft := writes, checksLeft := none, nextId := 2 }

/-- Runs the tree of a program. -/
def runTree (options : Options) (fuel : Nat) (checks : Option Nat) (tree : Node) (st : State) :
    Except Halt Value × State :=
  match statements options.echo (eval options.maxDepth fuel) .nil (Session.statementsOf tree)
      { st with checksLeft := checks } with
  | .ok v st => (.ok v, st)
  | .error h st => (.error h, st)

/-- Takes a step of a session: what comes of it, and the state after it. -/
def perform (options : Options) (st : State) (step : Session.Step) : Except Halt Value × State :=
  match step.task with
  | .tree node => runTree options step.fuel step.checks node st
  | .source text =>
      match (Parse.ofText text).outcome with
      | .ok tree => runTree options step.fuel step.checks tree st
      | .error h => (.error h, st)

/-- The state after several steps. -/
def after (options : Options) (st : State) (steps : List Session.Step) : State :=
  steps.foldl (fun st step => (perform options st step).2) st

end Dynamic

end Offside
