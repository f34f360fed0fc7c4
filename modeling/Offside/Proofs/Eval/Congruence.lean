import Offside.Session

/-!
# Two computations, form by form

A relation between computations, as seen from a slot, is a congruence if it holds between every
action and itself, and between sequences whose parts it relates. Two evaluators that such a relation
holds between do related things with every list of statements, every argument list, every branch and
every arm, and so with every node, as soon as calls are related (`Congruence.step`). Calls are left
out: they look from another slot, and may be made to another depth.

That both computations keep an invariant is such a relation too, so an invariant needs no induction
over the forms of its own.
-/

set_option autoImplicit false

namespace Offside

namespace Eval

/-- What is done in the frame of a call: the parameters are declared, the call is journalled, and
the body is run. -/
def callBody (ev : Evaluator) (name : String) (f : Function) (args : List Value) (frame : Nat) :
    Run Value := do
  Run.declareAll frame args 0 f.params
  Run.log (.call name args.length (frame + 1))
  let v ← runBlock (ev frame) f.body
  pure (v.getD .nil)

/-- A call that is too deep is refused on the machine it is made on. -/
theorem enter_of_le {maxDepth : Int} {m : Machine} (h : maxDepth ≤ m.depth) (ev : Evaluator)
    (slot : Nat) (tok : Token) (name : String) (f : Function) (args : List Value) :
    enter maxDepth ev slot tok name f args m =
      .error (.fault (.tooDeep name maxDepth tok.pos)) m := by
  change (if maxDepth ≤ (m.depth : Int) then Run.fail (.tooDeep name maxDepth tok.pos)
    else Run.inNewFrame slot (callBody ev name f args)) m = _
  rw [if_pos h]
  rfl

/-- Any other call is made in a new frame. -/
theorem enter_of_not_le {maxDepth : Int} {m : Machine} (h : ¬ maxDepth ≤ m.depth) (ev : Evaluator)
    (slot : Nat) (tok : Token) (name : String) (f : Function) (args : List Value) :
    enter maxDepth ev slot tok name f args m =
      Run.inNewFrame slot (callBody ev name f args) m := by
  change (if maxDepth ≤ (m.depth : Int) then Run.fail (.tooDeep name maxDepth tok.pos)
    else Run.inNewFrame slot (callBody ev name f args)) m = _
  rw [if_neg h]

/-- A relation between computations that every action has to itself and that sequences carry
over. -/
structure Congruence (B : ∀ {α : Type}, Nat → Run α → Run α → Prop) : Prop where
  pure : ∀ {α : Type} (slot : Nat) (a : α), B slot (Pure.pure a) (Pure.pure a)
  throw : ∀ {α : Type} (slot : Nat) (h : Halt),
    B slot (MonadExcept.throw h : Run α) (MonadExcept.throw h)
  bind : ∀ {α β : Type} (slot : Nat) {x y : Run α} {f g : α → Run β},
    B slot x y → (∀ a, B slot (f a) (g a)) → B slot (x >>= f) (y >>= g)
  check : ∀ slot, B slot Run.check Run.check
  log : ∀ slot entry, B slot (Run.log entry) (Run.log entry)
  freshId : ∀ slot, B slot Run.freshId Run.freshId
  write : ∀ slot piece, B slot (Run.write piece) (Run.write piece)
  readLine : ∀ slot, B slot Builtin.readLine Builtin.readLine
  lookup : ∀ slot name, B slot (Run.lookup slot name) (Run.lookup slot name)
  declare : ∀ slot name v, B slot (Run.declare slot name v) (Run.declare slot name v)
  assign : ∀ slot name v, B slot (Run.assign slot name v) (Run.assign slot name v)

namespace Congruence

variable {B : ∀ {α : Type}, Nat → Run α → Run α → Prop} (C : Congruence B) {slot : Nat}
include C

/-- The outcome of an operator is related to itself. -/
theorem lift (o : Except Halt Value) : B slot (Eval.lift o) (Eval.lift o) := by
  cases o with
  | ok v => exact C.pure slot v
  | error h => exact C.throw slot h

/-- The declaration of parameters is related to itself. -/
theorem declareAll (args : List Value) (index : Nat) (names : List String) :
    B slot (Run.declareAll slot args index names) (Run.declareAll slot args index names) := by
  induction names generalizing index with
  | nil => exact C.pure slot ()
  | cons name names ih =>
    unfold Run.declareAll
    cases args[index]? with
    | none => exact C.throw slot _
    | some v => exact C.bind slot (C.declare slot name v) fun _ => ih (index + 1)

/-- The call of a builtin is related to itself. -/
theorem builtin (name : String) (args : List Value) :
    B slot (Builtin.run name args) (Builtin.run name args) := by
  unfold Builtin.run
  split
  · exact C.bind slot (C.write slot _) fun _ => C.pure slot _
  · split
    · cases args with
      | nil => exact C.readLine slot
      | cons prompt rest => exact C.bind slot (C.write slot _) fun _ => C.readLine slot
    · exact C.pure slot _

section Parts

variable {ev ev' : Node → Run Value} (hev : ∀ node, B slot (ev node) (ev' node))
include hev

/-- Statement lists are related if every statement is. -/
theorem runBlock (statements : List Node) :
    B slot (Eval.runBlock ev statements) (Eval.runBlock ev' statements) := by
  fun_induction Eval.runBlock ev statements with
  | case1 => exact C.pure slot _
  | case2 tok value rest => exact C.bind slot (hev value) fun _ => C.pure slot _
  | case3 statement rest hne ih =>
    rw [Eval.runBlock]
    · exact C.bind slot (hev statement) fun _ => ih
    · exact hne

/-- Argument lists are related if every argument is. -/
theorem runArgs (args : List Node) :
    B slot (Eval.runArgs ev args) (Eval.runArgs ev' args) := by
  induction args with
  | nil => exact C.pure slot _
  | cons arg rest ih =>
    apply C.bind slot (hev arg)
    intro v
    exact C.bind slot ih fun vs => C.pure slot (v :: vs)

/-- Branches are related if their conditions and bodies are. -/
theorem runBranches (branches : Branches) :
    B slot (Eval.runBranches ev branches) (Eval.runBranches ev' branches) := by
  fun_induction Eval.runBranches ev branches with
  | case1 => exact C.pure slot _
  | case2 tok body => exact C.bind slot (C.runBlock hev body) fun _ => C.pure slot _
  | case3 condition tok body rest ih =>
    apply C.bind slot (hev condition)
    intro v
    split
    · exact C.bind slot (C.runBlock hev body) fun _ => C.pure slot _
    · exact ih

/-- Arms are related if their patterns and results are. -/
theorem runArms (subject : Value) (arms : Arms) :
    B slot (Eval.runArms ev subject arms) (Eval.runArms ev' subject arms) := by
  fun_induction Eval.runArms ev subject arms with
  | case1 => exact C.pure slot _
  | case2 tok result rest => exact hev result
  | case3 tok pattern result rest ih =>
    apply C.bind slot (hev pattern)
    intro v
    split
    · exact hev result
    · exact ih

/-- Programs are related if every statement of them is. -/
theorem runStatements (echo : Bool) (result : Value) (program : List Node) :
    B slot (Session.runStatements echo ev result program)
      (Session.runStatements echo ev' result program) := by
  fun_induction Session.runStatements echo ev result program with
  | case1 result => exact C.bind slot (C.log slot _) fun _ => C.pure slot result
  | case2 result tok value rest => exact hev value
  | case3 result statement rest hne ih =>
    rw [Session.runStatements]
    · exact C.bind slot (hev statement) ih
    · exact hne

end Parts

section Nodes

variable {ev ev' : Evaluator} (hev : ∀ slot node, B slot (ev slot node) (ev' slot node))
include hev

/-- What is done in the frame of a call is related, as seen from that frame. -/
theorem callBody (name : String) (f : Function) (args : List Value) (frame : Nat) :
    B frame (Eval.callBody ev name f args frame) (Eval.callBody ev' name f args frame) := by
  apply C.bind frame (C.declareAll args 0 f.params)
  intro _
  apply C.bind frame (C.log frame _)
  intro _
  exact C.bind frame (C.runBlock (hev frame) f.body) fun _ => C.pure frame _

/-- What a node does with two evaluators is related, if what it does as a call is. -/
theorem step {maxDepth maxDepth' : Int} (node : Node)
    (hcall : ∀ tok name args, B slot (Eval.call maxDepth ev slot tok name args)
      (Eval.call maxDepth' ev' slot tok name args)) :
    B slot (Eval.step maxDepth ev slot node) (Eval.step maxDepth' ev' slot node) := by
  cases node with
  | missing => exact C.throw slot _
  | block tok statements =>
    exact C.bind slot (C.runBlock (hev slot) statements) fun _ => C.pure slot _
  | declaration tok name value =>
    apply C.bind slot (hev slot value)
    intro v
    exact C.bind slot (C.declare slot name v) fun _ => C.pure slot _
  | assignment tok name value =>
    apply C.bind slot (hev slot value)
    intro v
    exact C.bind slot (C.assign slot name v) fun _ => C.pure slot _
  | reference tok name => exact C.lookup slot name
  | integer | float | string | boolean | nil => exact C.pure slot _
  | unary tok op operand => exact C.bind slot (hev slot operand) fun _ => C.lift _
  | binary tok op left right =>
    apply C.bind slot (hev slot left)
    intro l
    exact C.bind slot (hev slot right) fun _ => C.lift _
  | definition tok name params bodyTok body =>
    apply C.bind slot (C.freshId slot)
    intro id
    exact C.bind slot (C.declare slot name _) fun _ => C.pure slot _
  | call tok name args => exact hcall tok name args
  | conditional tok branches => exact C.runBranches (hev slot) branches
  | loop tok condition bodyTok body =>
    apply C.bind slot (C.check slot)
    intro _
    apply C.bind slot (hev slot condition)
    intro v
    split
    · exact C.bind slot (C.runBlock (hev slot) body) fun _ => hev slot _
    · exact C.pure slot _
  | ret tok value => exact hev slot value
  | select tok subject arms =>
    exact C.bind slot (hev slot subject) fun v => C.runArms (hev slot) v arms

end Nodes

end Congruence

end Eval

end Offside
