import Offside.Proofs.Token.Moved
import Offside.Tree.Basic

/-!
# Trees at other places

A tree is moved by moving every token in it; what the tokens are, and everything else in the tree,
stays the same. If all places go to one, what is left is the tree without regard to its layout.
-/

set_option autoImplicit false

namespace Offside

mutual

/-- A node with every token at another place. -/
def Node.moved (f : Position → Position) : Node → Node
  | .missing => .missing
  | .block tok statements => .block (tok.moved f) (Node.allMoved f statements)
  | .declaration tok name value => .declaration (tok.moved f) name (value.moved f)
  | .assignment tok name value => .assignment (tok.moved f) name (value.moved f)
  | .reference tok name => .reference (tok.moved f) name
  | .integer tok n => .integer (tok.moved f) n
  | .float tok x => .float (tok.moved f) x
  | .string tok t => .string (tok.moved f) t
  | .boolean tok b => .boolean (tok.moved f) b
  | .nil tok => .nil (tok.moved f)
  | .unary tok op operand => .unary (tok.moved f) op (operand.moved f)
  | .binary tok op left right => .binary (tok.moved f) op (left.moved f) (right.moved f)
  | .definition tok name params bodyTok body =>
      .definition (tok.moved f) name params (bodyTok.moved f) (Node.allMoved f body)
  | .call tok name args => .call (tok.moved f) name (Node.allMoved f args)
  | .conditional tok branches => .conditional (tok.moved f) (branches.moved f)
  | .loop tok condition bodyTok body =>
      .loop (tok.moved f) (condition.moved f) (bodyTok.moved f) (Node.allMoved f body)
  | .ret tok value => .ret (tok.moved f) (value.moved f)
  | .select tok subject arms => .select (tok.moved f) (subject.moved f) (arms.moved f)

/-- Several nodes with every token at another place. -/
def Node.allMoved (f : Position → Position) : List Node → List Node
  | [] => []
  | n :: rest => n.moved f :: Node.allMoved f rest

/-- Branches with every token at another place. -/
def Branches.moved (f : Position → Position) : Branches → Branches
  | .done => .done
  | .otherwise bodyTok body => .otherwise (bodyTok.moved f) (Node.allMoved f body)
  | .guarded condition bodyTok body rest =>
      .guarded (condition.moved f) (bodyTok.moved f) (Node.allMoved f body) (rest.moved f)

/-- Arms with every token at another place. -/
def Arms.moved (f : Position → Position) : Arms → Arms
  | .done => .done
  | .pattern tok pattern result rest =>
      .pattern (tok.moved f) (pattern.moved f) (result.moved f) (rest.moved f)
  | .wildcard tok result rest => .wildcard (tok.moved f) (result.moved f) (rest.moved f)

end

attribute [simp] Node.moved Node.allMoved Branches.moved Arms.moved

/-- There are as many nodes when they are moved. -/
theorem Node.length_allMoved (f : Position → Position) (nodes : List Node) :
    (Node.allMoved f nodes).length = nodes.length := by
  induction nodes with
  | nil => rfl
  | cons n rest ih => simp [ih]

/-- A node that is moved is an expression if it was one. -/
theorem Node.isExpression_moved (f : Position → Position) (n : Node) :
    (n.moved f).isExpression = n.isExpression := by
  cases n <;> rfl

/-! ## Trees without regard to their layout -/

/-- The only place that is left where places are disregarded. -/
def Position.disregarded (_ : Position) : Position := .start

/-- The nodes are the same but for the places of their tokens. -/
def Node.SameButPlaces (n n' : Node) : Prop :=
  n'.moved .disregarded = n.moved .disregarded

/-- The lists of nodes are the same but for the places of their tokens. -/
def Node.AllSameButPlaces (ns ns' : List Node) : Prop :=
  Node.allMoved .disregarded ns' = Node.allMoved .disregarded ns

/-- The branches are the same but for the places of their tokens. -/
def Branches.SameButPlaces (bs bs' : Branches) : Prop :=
  bs'.moved .disregarded = bs.moved .disregarded

/-- The arms are the same but for the places of their tokens. -/
def Arms.SameButPlaces (as as' : Arms) : Prop :=
  as'.moved .disregarded = as.moved .disregarded

/-- The stops are the same but for the places that they report. -/
def Halt.SameButPlaces (h h' : Halt) : Prop :=
  h'.moved .disregarded = h.moved .disregarded

end Offside
