import Offside.Decimal.Layout
import Offside.Text.Quoted
import Offside.Tree.Basic

/-!
# Trees as s-expressions

The s-expression of a tree is one line: literals, names and operators stand for themselves, and
everything compound is in parentheses behind its head. Each function here writes in front of the
characters that follow, so a tree is written in one pass.
-/

set_option autoImplicit false

namespace Offside

namespace SExpr

/-- The characters of a whole number. -/
def ofInt (n : Int) : List Char := (toString n).toList

/-- The characters of a truth value. -/
def ofBool (b : Bool) : List Char := if b then ['t', 'r', 'u', 'e'] else ['f', 'a', 'l', 's', 'e']

/-- Strings with a space between each two. -/
def spaced : List String → List Char
  | [] => []
  | [s] => s.toList
  | s :: rest => s.toList ++ ' ' :: spaced rest

end SExpr

mutual

/-- Writes a tree in front of `k`. -/
def Node.spell : Node → List Char → List Char
  | .missing, k => k
  | .block _ statements, k => "(do".toList ++ Node.spellEach statements (')' :: k)
  | .declaration _ name value, k =>
      "(let ".toList ++ (name.toList ++ ' ' :: value.spell (')' :: k))
  | .assignment _ name value, k => "(= ".toList ++ (name.toList ++ ' ' :: value.spell (')' :: k))
  | .reference _ name, k => name.toList ++ k
  | .integer _ value, k => SExpr.ofInt value.toInt ++ k
  | .float _ value, k => (Layout.plain.render value).toList ++ k
  | .string _ value, k => Quoted.chars value ++ k
  | .boolean _ value, k => SExpr.ofBool value ++ k
  | .nil _, k => "nil".toList ++ k
  | .unary _ operator operand, k =>
      '(' :: (operator.symbol.toList ++ ' ' :: operand.spell (')' :: k))
  | .binary _ operator left right, k =>
      '(' :: (operator.symbol.toList ++ ' ' :: left.spell (' ' :: right.spell (')' :: k)))
  | .definition _ name params _ body, k =>
      "(fn ".toList ++ (name.toList ++ " (".toList ++ (SExpr.spaced params ++ (") (do".toList ++
        Node.spellEach body (')' :: ')' :: k))))
  | .call _ name args, k => '(' :: (name.toList ++ Node.spellEach args (')' :: k))
  | .conditional _ branches, k => "(if".toList ++ branches.spell (')' :: k)
  | .loop _ condition _ body, k =>
      "(while ".toList ++ condition.spell (" (do".toList ++ Node.spellEach body (')' :: ')' :: k))
  | .ret _ value, k => "(return ".toList ++ value.spell (')' :: k)
  | .select _ subject arms, k => "(match ".toList ++ subject.spell (arms.spell (')' :: k))

/-- Writes trees in front of `k`, each behind a space. -/
def Node.spellEach : List Node → List Char → List Char
  | [], k => k
  | n :: rest, k => ' ' :: n.spell (Node.spellEach rest k)

/-- Writes branches in front of `k`. -/
def Branches.spell : Branches → List Char → List Char
  | .done, k => k
  | .otherwise _ body, k => " (else".toList ++ Node.spellEach body (')' :: k)
  | .guarded condition _ body rest, k =>
      ' ' :: condition.spell (" (do".toList ++ Node.spellEach body (')' :: rest.spell k))

/-- Writes arms in front of `k`. -/
def Arms.spell : Arms → List Char → List Char
  | .done, k => k
  | .pattern _ pattern result rest, k =>
      " (".toList ++ pattern.spell (' ' :: result.spell (')' :: rest.spell k))
  | .wildcard _ result rest, k => " (* ".toList ++ result.spell (')' :: rest.spell k)

end

/-- The s-expression of a tree, if no node of it is missing. -/
def Node.sexpr? (n : Node) : Option String :=
  if n.isWhole then some (String.ofList (n.spell [])) else none

end Offside
