import Offside.Decimal.Layout
import Offside.Text.Quoted
import Offside.Tree.Basic

/-!
# Dumps of trees

The dump of a tree shows each node with the names of its form and of its parts, a part to a line,
indented by how deeply it is nested. Parts that are empty, false or zero are left out, but the
token and the position of a node are always shown. A dump is first laid out as groups of named
parts and then written.
-/

set_option autoImplicit false

namespace Offside

mutual

/-- Something that is shown: a word, or a group of parts in braces behind its head. -/
inductive Shown where
  /-- A word. -/
  | word (text : String)
  /-- A group of parts. -/
  | group (head : String) (parts : ShownParts)

/-- The parts of a group, each with its name if it has one. -/
inductive ShownParts where
  /-- No further part. -/
  | done
  /-- A part, and the parts after it. -/
  | part (name : Option String) (value : Shown) (rest : ShownParts)

end

instance : Inhabited Shown := ⟨.word ""⟩

instance : Inhabited ShownParts := ⟨.done⟩

namespace Shown

/-- How many blanks a level of nesting is indented by. -/
def indentation : Nat := 2

/-- The blanks in front of a line at a level of nesting, in front of `k`. -/
def indentOnto (level : Nat) (k : List Char) : List Char :=
  List.replicate (indentation * level) ' ' ++ k

mutual

/-- Writes something at a level of nesting in front of `k`. -/
def spell (level : Nat) : Shown → List Char → List Char
  | .word text, k => text.toList ++ k
  | .group head parts, k =>
      head.toList ++ '\x7b' :: '\n' :: spellParts (level + 1) parts
        (indentOnto level ('\x7d' :: k))

/-- Writes parts at a level of nesting in front of `k`, each with a comma on a line of its own. -/
def spellParts (level : Nat) : ShownParts → List Char → List Char
  | .done, k => k
  | .part name value rest, k =>
      let body := value.spell level (',' :: '\n' :: spellParts level rest k)
      indentOnto level (match name with
        | some name => name.toList ++ ':' :: ' ' :: body
        | none => body)

end

/-- What is shown, as text. -/
def render (s : Shown) : String := .ofList (s.spell 0 [])

/-- A group of named parts, without those that are left out. -/
def record (head : String) (parts : List (String × Option Shown)) : Shown :=
  .group head (parts.foldr (fun p rest => match p.2 with
    | some value => .part (some p.1) value rest
    | none => rest) .done)

/-- A group of parts without names, left out if there are none. -/
def list? (head : String) : List Shown → Option Shown
  | [] => none
  | items => some (.group head (items.foldr (.part none) .done))

/-- A text in quotes, left out if it is empty. -/
def string? (s : String) : Option Shown :=
  if s.isEmpty then none else some (.word (Quoted.string s))

/-- A whole number, left out if it is zero. -/
def int? (n : Int) : Option Shown := if n = 0 then none else some (.word (toString n))

/-- A truth value, left out if it is false. -/
def bool? (b : Bool) : Option Shown := if b then some (.word "true") else none

/-- A double, left out if it is zero. -/
def float? (x : Float) : Option Shown :=
  if x == 0 then none else some (.word (Layout.compact.render x))

/-- A kind of tokens, left out if it is the end of input. -/
def kind? (k : Kind) : Option Shown :=
  if k = .endOfInput then none else some (.word ("types.TokenKind(" ++ k.name ++ ")"))

/-- A position. -/
def ofPosition (p : Position) : Shown :=
  record "types.Position" [("Line", int? p.line), ("Column", int? p.column)]

/-- A token. -/
def ofToken (t : Token) : Shown :=
  record "types.Token"
    [("Kind", kind? t.kind), ("Value", string? t.value), ("Pos", some (ofPosition t.pos))]

/-- A node with its token behind the name of its form. -/
def ofForm (form : String) (tok : Token) (parts : List (String × Option Shown)) : Shown :=
  record ("&ast." ++ form) (("Tok", some (ofToken tok)) :: parts)

/-- The parts of a list of statements. -/
def ofBody (head : String) (tok : Token) (statements : List Shown) : Shown :=
  record head [("Tok", some (ofToken tok)), ("Statements", list? "[]ast.Node" statements)]

/-- The head of a list of statements. -/
def bodyHead : String := "&ast.StatementList"

end Shown

mutual

/-- The layout of a tree; a gap is left out. -/
def Node.shown? : Node → Option Shown
  | .missing => none
  | .block tok statements => some (.ofBody Shown.bodyHead tok (Node.shownEach statements))
  | .declaration tok name value =>
      some (.ofForm "Declaration" tok [("Name", Shown.string? name), ("Value", value.shown?)])
  | .assignment tok name value =>
      some (.ofForm "Assignment" tok [("Name", Shown.string? name), ("Value", value.shown?)])
  | .reference tok name => some (.ofForm "VariableRef" tok [("Name", Shown.string? name)])
  | .integer tok value => some (.ofForm "NumberLiteral" tok [("Int", Shown.int? value.toInt)])
  | .float tok value =>
      some (.ofForm "NumberLiteral" tok
        [("IsFloat", Shown.bool? true), ("Float", Shown.float? value)])
  | .string tok value =>
      some (.ofForm "StringLiteral" tok
        [("Value", if value.isEmpty then none else some (.word (Quoted.text value)))])
  | .boolean tok value => some (.ofForm "BooleanLiteral" tok [("Value", Shown.bool? value)])
  | .nil tok => some (.ofForm "NilLiteral" tok [])
  | .unary tok operator operand =>
      some (.ofForm "UnaryOp" tok [("Op", Shown.kind? operator), ("Operand", operand.shown?)])
  | .binary tok operator left right =>
      some (.ofForm "BinaryOp" tok
        [("Op", Shown.kind? operator), ("Left", left.shown?), ("Right", right.shown?)])
  | .definition tok name params bodyTok body =>
      some (.ofForm "FunctionDef" tok
        [("Name", Shown.string? name),
          ("Params", Shown.list? "[]string" (params.map fun p => .word (Quoted.string p))),
          ("Body", some (.ofBody Shown.bodyHead bodyTok (Node.shownEach body)))])
  | .call tok name args =>
      some (.ofForm "FunctionCall" tok
        [("Name", Shown.string? name), ("Args", Shown.list? "[]ast.Node" (Node.shownEach args))])
  | .conditional tok branches =>
      some (.ofForm "If" tok
        [("Conditions", Shown.list? "[]ast.Node" branches.shownConditions),
          ("Bodies", Shown.list? "[]*ast.StatementList" branches.shownBodies),
          ("Else", branches.shownElse?)])
  | .loop tok condition bodyTok body =>
      some (.ofForm "While" tok
        [("Condition", condition.shown?),
          ("Body", some (.ofBody Shown.bodyHead bodyTok (Node.shownEach body)))])
  | .ret tok value => some (.ofForm "Return" tok [("Value", value.shown?)])
  | .select tok subject arms =>
      some (.ofForm "Match" tok
        [("Subject", subject.shown?), ("Arms", Shown.list? "[]ast.MatchArm" arms.shownEach)])

/-- The layouts of trees, with the word for nothing for a gap. -/
def Node.shownEach : List Node → List Shown
  | [] => []
  | n :: rest => n.shown?.getD (.word "nil") :: Node.shownEach rest

/-- The layouts of the conditions of branches. -/
def Branches.shownConditions : Branches → List Shown
  | .done | .otherwise .. => []
  | .guarded condition _ _ rest =>
      condition.shown?.getD (.word "nil") :: rest.shownConditions

/-- The layouts of the bodies of branches that have a condition. -/
def Branches.shownBodies : Branches → List Shown
  | .done | .otherwise .. => []
  | .guarded _ bodyTok body rest =>
      .ofBody "" bodyTok (Node.shownEach body) :: rest.shownBodies

/-- The layout of the body that is taken if no condition holds. -/
def Branches.shownElse? : Branches → Option Shown
  | .done => none
  | .otherwise bodyTok body => some (.ofBody Shown.bodyHead bodyTok (Node.shownEach body))
  | .guarded _ _ _ rest => rest.shownElse?

/-- The layouts of arms. -/
def Arms.shownEach : Arms → List Shown
  | .done => []
  | .pattern tok pattern result rest =>
      .record "" [("Tok", some (.ofToken tok)), ("Pattern", pattern.shown?),
        ("Expr", result.shown?)] :: rest.shownEach
  | .wildcard tok result rest =>
      .record "" [("Tok", some (.ofToken tok)), ("Wildcard", Shown.bool? true),
        ("Expr", result.shown?)] :: rest.shownEach

end

/-- The dump of a tree. -/
def Node.dump (n : Node) : String := (n.shown?.getD (.word "nil")).render

end Offside
