import Offside.Session

/-!
# Trees without what stands behind a return

A `return` ends the statement list that it stands in, so nothing behind the first `return` of a list
is ever reached. A tree is pruned by taking these statements out of all its lists, the bodies of
functions included. What the body of a loop or of a branch gives is dropped, so there the `return`
goes as well, and only its value is left as the last statement. Lists that stand for a value, and
bodies of functions, keep their `return`.

A `return` may give a `return` in a tree that was put together by hand. Then the value that is left
in the body of a loop or of a branch is a `return` again.
-/

set_option autoImplicit false

namespace Offside

/-- A statement list up to its first `return`, with something else in place of that. -/
def Node.upToReturn (last : Token → Node → Node) : List Node → List Node
  | [] => []
  | .ret tok value :: _ => [last tok value]
  | n :: rest => n :: Node.upToReturn last rest

mutual

/-- A node without the statements that stand behind a `return`, and without the needless `return`s
in the bodies of loops and branches. -/
def Node.pruned : Node → Node
  | .missing => .missing
  | .block tok statements => .block tok (Node.upToReturn .ret (Node.allPruned statements))
  | .declaration tok name value => .declaration tok name value.pruned
  | .assignment tok name value => .assignment tok name value.pruned
  | .reference tok name => .reference tok name
  | .integer tok n => .integer tok n
  | .float tok x => .float tok x
  | .string tok t => .string tok t
  | .boolean tok b => .boolean tok b
  | .nil tok => .nil tok
  | .unary tok op operand => .unary tok op operand.pruned
  | .binary tok op left right => .binary tok op left.pruned right.pruned
  | .definition tok name params bodyTok body =>
      .definition tok name params bodyTok (Node.upToReturn .ret (Node.allPruned body))
  | .call tok name args => .call tok name (Node.allPruned args)
  | .conditional tok branches => .conditional tok branches.pruned
  | .loop tok condition bodyTok body =>
      .loop tok condition.pruned bodyTok
        (Node.upToReturn (fun _ value => value) (Node.allPruned body))
  | .ret tok value => .ret tok value.pruned
  | .select tok subject arms => .select tok subject.pruned arms.pruned

/-- Several nodes, each of them pruned. -/
def Node.allPruned : List Node → List Node
  | [] => []
  | n :: rest => n.pruned :: Node.allPruned rest

/-- Branches with pruned conditions and bodies. -/
def Branches.pruned : Branches → Branches
  | .done => .done
  | .otherwise bodyTok body =>
      .otherwise bodyTok (Node.upToReturn (fun _ value => value) (Node.allPruned body))
  | .guarded condition bodyTok body rest =>
      .guarded condition.pruned bodyTok
        (Node.upToReturn (fun _ value => value) (Node.allPruned body)) rest.pruned

/-- Arms with pruned patterns and results. -/
def Arms.pruned : Arms → Arms
  | .done => .done
  | .pattern tok pattern result rest => .pattern tok pattern.pruned result.pruned rest.pruned
  | .wildcard tok result rest => .wildcard tok result.pruned rest.pruned

end

namespace Node

/-- The pruned body of a function. -/
def prunedBlock (statements : List Node) : List Node := upToReturn .ret (allPruned statements)

/-! ## Trees that are pruned or left alone -/

/-- A node that is pruned if the flag is set. -/
def cut : (on : Bool) → Node → Node
  | false, n => n
  | true, n => n.pruned

/-- Several nodes, each of them pruned if the flag is set. -/
def allCut : (on : Bool) → List Node → List Node
  | false, ns => ns
  | true, ns => allPruned ns

/-- A statement list that is pruned if the flag is set. -/
def listCut (last : Token → Node → Node) : (on : Bool) → List Node → List Node
  | false, ns => ns
  | true, ns => upToReturn last (allPruned ns)

/-- There are as many nodes when each of them is cut. -/
theorem length_allCut (on : Bool) (ns : List Node) : (allCut on ns).length = ns.length := by
  cases on with
  | false => rfl
  | true =>
    induction ns with
    | nil => rfl
    | cons n rest ih => exact congrArg (· + 1) ih

/-- A node that is cut is an expression if it was one. -/
theorem isExpression_cut (on : Bool) (n : Node) : (n.cut on).isExpression = n.isExpression := by
  cases on with
  | false => rfl
  | true => cases n <;> rfl

section Ordinary

variable {n : Node} (hn : ∀ tok value, n = .ret tok value → False)
include hn

/-- A node that is no `return` does not become one. -/
theorem cut_ne_ret (on : Bool) (tok : Token) (value : Node) (h : n.cut on = .ret tok value) :
    False := by
  cases on with
  | false => exact hn tok value h
  | true =>
    cases n with
    | ret tok' value' => exact hn tok' value' rfl
    | _ => exact absurd h (by simp [cut, pruned])

/-- In front of a `return`, a list is cut node by node. -/
theorem listCut_cons (last : Token → Node → Node) (on : Bool) (rest : List Node) :
    listCut last on (n :: rest) = n.cut on :: listCut last on rest := by
  cases on with
  | false => rfl
  | true =>
    show upToReturn last (n.pruned :: allPruned rest) = _
    rw [upToReturn]
    · rfl
    · exact cut_ne_ret hn true

end Ordinary

end Node

/-- Branches that are pruned if the flag is set. -/
def Branches.cut : (on : Bool) → Branches → Branches
  | false, bs => bs
  | true, bs => bs.pruned

/-- Arms that are pruned if the flag is set. -/
def Arms.cut : (on : Bool) → Arms → Arms
  | false, as => as
  | true, as => as.pruned

/-- The statements of a pruned program are the pruned statements of the program. -/
theorem Session.statementsOf_cut (on : Bool) (tree : Node) :
    statementsOf (tree.cut on) = Node.listCut .ret on (statementsOf tree) := by
  cases on with
  | false => rfl
  | true => cases tree <;> rfl

end Offside
