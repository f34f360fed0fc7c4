import Offside.Eval.Builtin
import Offside.Eval.Operator

/-!
# Evaluation

One step of evaluation is given the evaluation of smaller tasks and says what a node does with it.
Evaluation with fuel repeats the step: each nested task has one unit of fuel less, and a task
without fuel stops. More fuel never changes what a task with enough fuel does.

Names are looked up where a function is called, since its frame is put under the frame of the
caller. A `return` ends the statement list it stands in and nothing else.
-/

set_option autoImplicit false

namespace Offside

/-- How nodes are evaluated as seen from a slot. -/
abbrev Evaluator := (slot : Nat) → Node → Run Value

namespace Eval

/-- An operator's outcome as a computation. -/
def lift (o : Except Halt Value) : Run Value := fun m =>
  match o with
  | .ok v => .ok v m
  | .error h => .error h m

/-- Runs a statement list: the value of the `return` that ended it, if one did. -/
@[specialize] def runBlock (ev : Node → Run Value) : List Node → Run (Option Value)
  | [] => pure none
  | .ret _ value :: _ => do
      let v ← ev value
      pure (some v)
  | statement :: rest => do
      let _ ← ev statement
      runBlock ev rest

/-- Evaluates arguments from left to right. -/
@[specialize] def runArgs (ev : Node → Run Value) : List Node → Run (List Value)
  | [] => pure []
  | arg :: rest => do
      let v ← ev arg
      let vs ← runArgs ev rest
      pure (v :: vs)

/-- Runs the body of the first branch whose condition holds. -/
@[specialize] def runBranches (ev : Node → Run Value) : Branches → Run Value
  | .done => pure .nil
  | .otherwise _ body => do
      let _ ← runBlock ev body
      pure .nil
  | .guarded condition _ body rest => do
      let v ← ev condition
      if v.truthy then
        let _ ← runBlock ev body
        pure .nil
      else runBranches ev rest

/-- Gives the result of the first arm that fits the subject, or nil. -/
@[specialize] def runArms (ev : Node → Run Value) (subject : Value) : Arms → Run Value
  | .done => pure .nil
  | .wildcard _ result _ => ev result
  | .pattern _ pattern result rest => do
      let v ← ev pattern
      if subject.equal v then ev result
      else runArms ev subject rest

/-- Calls a function that a script defines with evaluated arguments. -/
@[specialize] def enter (maxDepth : Int) (ev : Evaluator) (slot : Nat) (tok : Token)
    (name : String) (f : Function) (args : List Value) : Run Value := do
  let m ← get
  if maxDepth ≤ m.depth then Run.fail (.tooDeep name maxDepth tok.pos)
  else
    Run.inNewFrame slot fun frame => do
      Run.declareAll frame args 0 f.params
      Run.log (.call name args.length (frame + 1))
      let v ← runBlock (ev frame) f.body
      pure (v.getD .nil)

/-- Calls whatever the name stands for. -/
@[specialize] def call (maxDepth : Int) (ev : Evaluator) (slot : Nat) (tok : Token)
    (name : String) (args : List Node) : Run Value := do
  Run.check
  match ← Run.lookup slot name with
  | .builtin _ builtin => do
      let vs ← runArgs (ev slot) args
      Builtin.run builtin vs
  | .function f =>
      if args.length < f.params.length then
        Run.fail (.missingArguments name f.params.length args.length tok.pos)
      else do
        let vs ← runArgs (ev slot) args
        enter maxDepth ev slot tok name f vs
  | v => Run.fail (.notCallable name v.kind.name tok.pos)

/-- What a node does, given the evaluation of smaller tasks. -/
@[inline] def step (maxDepth : Int) (ev : Evaluator) (slot : Nat) (node : Node) : Run Value :=
  match node with
  | .missing => throw (.defect .missingNode)
  | .block _ statements => do
      let v ← runBlock (ev slot) statements
      pure (v.getD .nil)
  | .declaration _ name value => do
      let v ← ev slot value
      Run.declare slot name v
      pure .nil
  | .assignment _ name value => do
      let v ← ev slot value
      Run.assign slot name v
      pure .nil
  | .reference _ name => Run.lookup slot name
  | .integer _ n => pure (.int n)
  | .float _ x => pure (.float x)
  | .string _ t => pure (.string t)
  | .boolean _ b => pure (.bool b)
  | .nil _ => pure .nil
  | .unary tok op operand => do
      let v ← ev slot operand
      lift (Operator.unary op tok.pos v)
  | .binary tok op left right => do
      let l ← ev slot left
      let r ← ev slot right
      lift (Operator.binary op tok.pos l r)
  | .definition _ name params _ body => do
      let id ← Run.freshId
      Run.declare slot name (.function ⟨id, name, params, body⟩)
      pure .nil
  | .call tok name args => call maxDepth ev slot tok name args
  | .conditional _ branches => runBranches (ev slot) branches
  | .loop _ condition _ body => do
      Run.check
      let v ← ev slot condition
      if v.truthy then
        let _ ← runBlock (ev slot) body
        ev slot node
      else pure .nil
  | .ret _ value => ev slot value
  | .select _ subject arms => do
      let v ← ev slot subject
      runArms (ev slot) v arms

end Eval

/-- Evaluates a node as seen from a slot, calls being nested at most `maxDepth` deep. -/
def eval (maxDepth : Int) : (fuel : Nat) → Evaluator
  | 0, _, _ => throw .outOfFuel
  | fuel + 1, slot, node => Eval.step maxDepth (eval maxDepth fuel) slot node

end Offside
