import Offside.Proofs.Token.Legal
import Offside.Tree.Grammar

/-!
# Well-formed programs

The trees that a source can have. Statement lists stand only at the root and as bodies, and bodies
are not empty; a conditional starts with a condition; a selection has at least one arm; operators
are those of the grammar; names are identifiers and no reserved words; whole numbers are not
negative; texts are valid UTF-8; nil stands only where a declaration or a `return` leaves its value
out. Since a further branch belongs to the nearest conditional that can take it, no body in front of
another branch ends in a conditional that is still open.

That every condition has its body, and that the arms without a pattern are exactly the wildcards, is
part of the types `Branches` and `Arms`.
-/

set_option autoImplicit false

namespace Offside

/-- Whether a text is valid UTF-8. -/
def Text.isValid (t : Text) : Bool := t.toString?.isSome

/-- The operators that stand between two operands. -/
def Grammar.binaryOperators : List Kind := Grammar.levels.flatten

/-- Whether there is no further arm. -/
def Arms.isDone : Arms → Bool
  | .done => true
  | _ => false

/-- Whether there is no further branch. -/
def Branches.isDone : Branches → Bool
  | .done => true
  | _ => false

/-- Whether the first branch has a condition. -/
def Branches.isGuarded : Branches → Bool
  | .guarded .. => true
  | _ => false

/-- Whether a node is nil. -/
def Node.isNil : Node → Bool
  | .nil _ => true
  | _ => false

mutual

/-- Whether a node is a well-formed expression. -/
def Node.isExpr : Node → Bool
  | .reference _ name => isName name
  | .integer _ n => 0 ≤ n
  | .float .. | .boolean .. => true
  | .string _ t => t.isValid
  | .unary _ op operand => Grammar.unaryOperators.contains op && operand.isExpr
  | .binary _ op left right =>
      Grammar.binaryOperators.contains op && left.isExpr && right.isExpr
  | .call _ name args => isName name && Node.areExprs args
  | .select _ subject arms => subject.isExpr && !arms.isDone && arms.areWellFormed
  | .missing | .block .. | .declaration .. | .assignment .. | .nil .. | .definition ..
  | .conditional .. | .loop .. | .ret .. => false

/-- Whether all nodes are well-formed expressions. -/
def Node.areExprs : List Node → Bool
  | [] => true
  | n :: rest => n.isExpr && Node.areExprs rest

/-- Whether the patterns and results of arms are well-formed expressions. -/
def Arms.areWellFormed : Arms → Bool
  | .done => true
  | .pattern _ pattern result rest => pattern.isExpr && result.isExpr && rest.areWellFormed
  | .wildcard _ result rest => result.isExpr && rest.areWellFormed

end

mutual

/-- Whether a statement ends in a conditional that could take a further branch. -/
def Node.endsOpen : Node → Bool
  | .conditional _ branches => branches.endOpen
  | .definition _ _ _ _ body | .loop _ _ _ body => Node.lastEndsOpen body
  | _ => false

/-- Whether the last of several statements ends in a conditional that could take a further
branch. -/
def Node.lastEndsOpen : List Node → Bool
  | [] => false
  | [n] => n.endsOpen
  | _ :: rest => Node.lastEndsOpen rest

/-- Whether a conditional with these branches could take a further one, or ends in one that
could. -/
def Branches.endOpen : Branches → Bool
  | .done => true
  | .otherwise _ body => Node.lastEndsOpen body
  | .guarded _ _ _ rest => rest.endOpen

end

mutual

/-- Whether a node is a well-formed statement. -/
def Node.isStatement : Node → Bool
  | .declaration _ name value => isName name && (value.isNil || value.isExpr)
  | .assignment _ name value => isName name && value.isExpr
  | .ret _ value => value.isNil || value.isExpr
  | .definition _ name params _ body =>
      isName name && params.all isName && !body.isEmpty && Node.areStatements body
  | .conditional _ branches => branches.isGuarded && branches.areWellFormed
  | .loop _ condition _ body => condition.isExpr && !body.isEmpty && Node.areStatements body
  | n => n.isExpr

/-- Whether all nodes are well-formed statements. -/
def Node.areStatements : List Node → Bool
  | [] => true
  | n :: rest => n.isStatement && Node.areStatements rest

/-- Whether branches are well-formed: a body in front of another branch does not end in a
conditional that could take that branch. -/
def Branches.areWellFormed : Branches → Bool
  | .done => true
  | .otherwise _ body => !body.isEmpty && Node.areStatements body
  | .guarded condition _ body rest =>
      condition.isExpr && !body.isEmpty && Node.areStatements body &&
        (rest.isDone || !Node.lastEndsOpen body) && rest.areWellFormed

end

/-- Whether a node is a well-formed program: a list of well-formed statements, which may be
empty. -/
def Node.isProgram : Node → Bool
  | .block _ statements => Node.areStatements statements
  | _ => false

/-! ## Trees without their places -/

mutual

/-- A node with all its tokens replaced by one and the same, so that trees are compared without
regard to the places where they were read. -/
def Node.bare : Node → Node
  | .missing => .missing
  | .block _ statements => .block .origin (Node.allBare statements)
  | .declaration _ name value => .declaration .origin name value.bare
  | .assignment _ name value => .assignment .origin name value.bare
  | .reference _ name => .reference .origin name
  | .integer _ n => .integer .origin n
  | .float _ x => .float .origin x
  | .string _ t => .string .origin t
  | .boolean _ b => .boolean .origin b
  | .nil _ => .nil .origin
  | .unary _ op operand => .unary .origin op operand.bare
  | .binary _ op left right => .binary .origin op left.bare right.bare
  | .definition _ name params _ body =>
      .definition .origin name params .origin (Node.allBare body)
  | .call _ name args => .call .origin name (Node.allBare args)
  | .conditional _ branches => .conditional .origin branches.bare
  | .loop _ condition _ body => .loop .origin condition.bare .origin (Node.allBare body)
  | .ret _ value => .ret .origin value.bare
  | .select _ subject arms => .select .origin subject.bare arms.bare

/-- Several nodes without their places. -/
def Node.allBare : List Node → List Node
  | [] => []
  | n :: rest => n.bare :: Node.allBare rest

/-- Branches without their places. -/
def Branches.bare : Branches → Branches
  | .done => .done
  | .otherwise _ body => .otherwise .origin (Node.allBare body)
  | .guarded condition _ body rest =>
      .guarded condition.bare .origin (Node.allBare body) rest.bare

/-- Arms without their places. -/
def Arms.bare : Arms → Arms
  | .done => .done
  | .pattern _ pattern result rest => .pattern .origin pattern.bare result.bare rest.bare
  | .wildcard _ result rest => .wildcard .origin result.bare rest.bare

end

end Offside
