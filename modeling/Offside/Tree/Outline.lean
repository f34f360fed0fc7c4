import Offside.Tree.Basic

/-!
# Outlines of trees

The outline of a tree lists its nodes, parents before children, each with the name of its form and
its place.
-/

set_option autoImplicit false

namespace Offside

/-- A line of an outline: the name of a form and the place of its token. -/
structure OutlineItem where
  /-- The name of the form. -/
  form : String
  /-- The place of the node. -/
  pos : Position
  deriving DecidableEq, Repr, Inhabited

namespace OutlineItem

/-- The line of a node with the given token. -/
def of (form : String) (tok : Token) : OutlineItem := ⟨form, tok.pos⟩

/-- A line as text. -/
def render (i : OutlineItem) : String := s!"{i.form}@{i.pos.line}:{i.pos.column}"

end OutlineItem

mutual

/-- Writes the outline of a tree in front of `k`. -/
def Node.outlineOnto : Node → List OutlineItem → List OutlineItem
  | .missing, k => k
  | .block tok statements, k => .of "StatementList" tok :: Node.outlineEach statements k
  | .declaration tok _ value, k => .of "Declaration" tok :: value.outlineOnto k
  | .assignment tok _ value, k => .of "Assignment" tok :: value.outlineOnto k
  | .reference tok _, k => .of "VariableRef" tok :: k
  | .integer tok _, k | .float tok _, k => .of "NumberLiteral" tok :: k
  | .string tok _, k => .of "StringLiteral" tok :: k
  | .boolean tok _, k => .of "BooleanLiteral" tok :: k
  | .nil tok, k => .of "NilLiteral" tok :: k
  | .unary tok _ operand, k => .of "UnaryOp" tok :: operand.outlineOnto k
  | .binary tok _ left right, k =>
      .of "BinaryOp" tok :: left.outlineOnto (right.outlineOnto k)
  | .definition tok _ _ bodyTok body, k =>
      .of "FunctionDef" tok :: .of "StatementList" bodyTok :: Node.outlineEach body k
  | .call tok _ args, k => .of "FunctionCall" tok :: Node.outlineEach args k
  | .conditional tok branches, k => .of "If" tok :: branches.outlineOnto k
  | .loop tok condition bodyTok body, k =>
      .of "While" tok :: condition.outlineOnto (.of "StatementList" bodyTok ::
        Node.outlineEach body k)
  | .ret tok value, k => .of "Return" tok :: value.outlineOnto k
  | .select tok subject arms, k => .of "Match" tok :: subject.outlineOnto (arms.outlineOnto k)

/-- Writes the outlines of trees in front of `k`. -/
def Node.outlineEach : List Node → List OutlineItem → List OutlineItem
  | [], k => k
  | n :: rest, k => n.outlineOnto (Node.outlineEach rest k)

/-- Writes the outline of branches in front of `k`. -/
def Branches.outlineOnto : Branches → List OutlineItem → List OutlineItem
  | .done, k => k
  | .otherwise bodyTok body, k => .of "StatementList" bodyTok :: Node.outlineEach body k
  | .guarded condition bodyTok body rest, k =>
      condition.outlineOnto (.of "StatementList" bodyTok ::
        Node.outlineEach body (rest.outlineOnto k))

/-- Writes the outline of arms in front of `k`. -/
def Arms.outlineOnto : Arms → List OutlineItem → List OutlineItem
  | .done, k => k
  | .pattern tok pattern result rest, k =>
      .of "MatchArm" tok :: pattern.outlineOnto (result.outlineOnto (rest.outlineOnto k))
  | .wildcard tok result rest, k =>
      .of "MatchArm" tok :: result.outlineOnto (rest.outlineOnto k)

end

/-- The outline of a tree. -/
def Node.outline (n : Node) : List OutlineItem := n.outlineOnto []

end Offside
