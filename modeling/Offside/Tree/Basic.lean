import Offside.Text.Rune
import Offside.Token.Basic

/-!
# Program trees

A tree has one kind of node for statements and expressions alike, since an expression is a
statement and a block may stand where a value is wanted. Every node keeps the token that gives it
its place. Bodies are lists of statements with the token of their first statement. A tree that
was put together by hand may lack nodes; such a gap is a node of its own.
-/

set_option autoImplicit false

namespace Offside

mutual

/-- A node of a program tree. -/
inductive Node where
  /-- A gap where a node is missing. -/
  | missing
  /-- Statements one after the other. -/
  | block (tok : Token) (statements : List Node)
  /-- The declaration of a name with its first value. -/
  | declaration (tok : Token) (name : String) (value : Node)
  /-- A new value for a declared name. -/
  | assignment (tok : Token) (name : String) (value : Node)
  /-- The value of a name. -/
  | reference (tok : Token) (name : String)
  /-- A whole number. -/
  | integer (tok : Token) (value : Int64)
  /-- A number with a point. -/
  | float (tok : Token) (value : Float)
  /-- A text. -/
  | string (tok : Token) (value : Text)
  /-- A truth value. -/
  | boolean (tok : Token) (value : Bool)
  /-- The absence of a value. -/
  | nil (tok : Token)
  /-- An operator before its operand. -/
  | unary (tok : Token) (operator : Kind) (operand : Node)
  /-- An operator between its operands. -/
  | binary (tok : Token) (operator : Kind) (left right : Node)
  /-- The definition of a function. -/
  | definition (tok : Token) (name : String) (params : List String)
      (bodyTok : Token) (body : List Node)
  /-- A call of a function by its name. -/
  | call (tok : Token) (name : String) (args : List Node)
  /-- A choice between bodies. -/
  | conditional (tok : Token) (branches : Branches)
  /-- A body that is repeated while a condition holds. -/
  | loop (tok : Token) (condition : Node) (bodyTok : Token) (body : List Node)
  /-- The end of a statement list with a value. -/
  | ret (tok : Token) (value : Node)
  /-- A choice by comparison with a subject. -/
  | select (tok : Token) (subject : Node) (arms : Arms)

/-- The branches of a conditional, in the order in which they are tried. -/
inductive Branches where
  /-- No further branch. -/
  | done
  /-- The body that is taken if no condition holds. -/
  | otherwise (bodyTok : Token) (body : List Node)
  /-- A body under a condition, and the branches after it. -/
  | guarded (condition : Node) (bodyTok : Token) (body : List Node) (rest : Branches)

/-- The arms of a selection, in the order in which they are tried. -/
inductive Arms where
  /-- No further arm. -/
  | done
  /-- A result for subjects equal to the pattern, and the arms after it. -/
  | pattern (tok : Token) (pattern : Node) (result : Node) (rest : Arms)
  /-- A result for every subject, and the arms after it. -/
  | wildcard (tok : Token) (result : Node) (rest : Arms)

end

instance : Inhabited Node := ⟨.missing⟩

instance : Inhabited Branches := ⟨.done⟩

instance : Inhabited Arms := ⟨.done⟩

namespace Node

/-- The token that gives a node its place; a gap has none. -/
def tok? : Node → Option Token
  | missing => none
  | block tok _ | declaration tok _ _ | assignment tok _ _ | reference tok _ | integer tok _
  | float tok _ | string tok _ | boolean tok _ | nil tok | unary tok _ _ | binary tok _ _ _
  | definition tok _ _ _ _ | call tok _ _ | conditional tok _ | loop tok _ _ _ | ret tok _
  | select tok _ _ => some tok

/-- Whether a node is an expression, so that its value is worth showing. -/
def isExpression : Node → Bool
  | reference .. | integer .. | float .. | string .. | boolean .. | nil .. | unary .. | binary ..
  | call .. | select .. => true
  | _ => false

end Node

mutual

/-- Whether no node of a tree is missing. -/
def Node.isWhole : Node → Bool
  | .missing => false
  | .block _ statements => Node.allWhole statements
  | .declaration _ _ value | .assignment _ _ value | .ret _ value => value.isWhole
  | .reference .. | .integer .. | .float .. | .string .. | .boolean .. | .nil .. => true
  | .unary _ _ operand => operand.isWhole
  | .binary _ _ left right => left.isWhole && right.isWhole
  | .definition _ _ _ _ body => Node.allWhole body
  | .call _ _ args => Node.allWhole args
  | .conditional _ branches => branches.isWhole
  | .loop _ condition _ body => condition.isWhole && Node.allWhole body
  | .select _ subject arms => subject.isWhole && arms.isWhole

/-- Whether no node of several trees is missing. -/
def Node.allWhole : List Node → Bool
  | [] => true
  | n :: rest => n.isWhole && Node.allWhole rest

/-- Whether no node of the branches is missing. -/
def Branches.isWhole : Branches → Bool
  | .done => true
  | .otherwise _ body => Node.allWhole body
  | .guarded condition _ body rest => condition.isWhole && Node.allWhole body && rest.isWhole

/-- Whether no node of the arms is missing. -/
def Arms.isWhole : Arms → Bool
  | .done => true
  | .pattern _ pattern result rest => pattern.isWhole && result.isWhole && rest.isWhole
  | .wildcard _ result rest => result.isWhole && rest.isWhole

end

end Offside
