import Offside.Decimal.Layout
import Offside.Tree.Basic

/-!
# Values

A value is nil, a whole number of sixty-four bits, a double, a text, a truth value, or a function.
Functions, whether defined by a script or built in, are told apart by an identity that every one
gets when it comes into being.
-/

set_option autoImplicit false

namespace Offside

/-- The kind of a value. -/
inductive ValueKind where
  /-- The absence of a value. -/
  | nil
  /-- Whole numbers. -/
  | int
  /-- Doubles. -/
  | float
  /-- Texts. -/
  | string
  /-- Truth values. -/
  | bool
  /-- Functions. -/
  | function
  deriving DecidableEq, Repr, Inhabited

namespace ValueKind

/-- The name of a kind. -/
def name : ValueKind → String
  | nil => "nil"
  | int => "int"
  | float => "float"
  | string => "string"
  | bool => "bool"
  | function => "function"

/-- The kinds in the order of their numbers from zero. -/
def all : List ValueKind := [nil, int, float, string, bool, function]

/-- The name of the kind with the given number. -/
def nameOfCode (code : Int) : String :=
  if code < 0 then "unknown" else (all[code.toNat]?.map name).getD "unknown"

end ValueKind

/-- A function that a script defines. It holds no scope: free names of its body are looked up
where it is called. -/
structure Function where
  /-- What tells this function from all others. -/
  id : Nat
  /-- The name it was defined with. -/
  name : String
  /-- The names of its parameters. -/
  params : List String
  /-- The statements of its body. -/
  body : List Node
  deriving Inhabited

/-- What an expression can give. -/
inductive Value where
  /-- The absence of a value. -/
  | nil
  /-- A whole number, taken modulo two to the sixty-fourth. -/
  | int (n : Int64)
  /-- A double. -/
  | float (x : Float)
  /-- A text. -/
  | string (t : Text)
  /-- A truth value. -/
  | bool (b : Bool)
  /-- A function that a script defines. -/
  | function (f : Function)
  /-- A function that is built in, with its identity. -/
  | builtin (id : Nat) (name : String)
  deriving Inhabited

namespace Value

/-- The kind of a value. -/
def kind : Value → ValueKind
  | nil => .nil
  | int _ => .int
  | float _ => .float
  | string _ => .string
  | bool _ => .bool
  | function _ | builtin .. => .function

/-- The text of a value. -/
def text : Value → Text
  | nil => .ofString "nil"
  | int n => .ofString (toString n.toInt)
  | float x => .ofString (Layout.pointed.render x)
  | string t => t
  | bool b => .ofString (if b then "true" else "false")
  | function f => .ofString s!"<fn {f.name}>"
  | builtin _ name => .ofString s!"<builtin {name}>"

/-- Whether a value is a number. -/
def isNumeric : Value → Bool
  | int _ | float _ => true
  | _ => false

/-- A number as a double. -/
def toFloat? : Value → Option Float
  | int n => some n.toFloat
  | float x => some x
  | _ => none

/-- Whether a value lets a condition hold. -/
def truthy : Value → Bool
  | nil => false
  | int n => n != 0
  | float x => x != 0
  | string t => !t.isEmpty
  | bool b => b
  | function _ | builtin .. => true

/-- Equality as selections use it: numbers compare by what they stand for, functions by identity,
and values of otherwise different kinds differ. -/
def equal : Value → Value → Bool
  | nil, nil => true
  | int a, int b => a == b
  | int a, float b => a.toFloat == b
  | float a, int b => a == b.toFloat
  | float a, float b => a == b
  | string a, string b => a == b
  | bool a, bool b => a == b
  | function a, function b => a.id == b.id
  | builtin a _, builtin b _ => a == b
  | _, _ => false

end Value

end Offside
