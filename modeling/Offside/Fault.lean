import Offside.Position
import Offside.Text.Quoted
import Offside.Token.Kind

/-!
# Faults of a script

A fault is a reason why a script cannot be read or cannot go on. The wording of every fault is in
`Fault.message`.
-/

set_option autoImplicit false

namespace Offside

/-- What is wrong with a script. -/
inductive Fault where
  /-- A token that cannot stand where it stands, with the kinds that could, or a reason. -/
  | unexpected (got : Kind) (expected : List Kind) (reason : String) (pos : Position)
  /-- A character that starts no token, given by its code. -/
  | invalidCharacter (code : Int) (pos : Position)
  /-- A string without its closing quote. -/
  | unterminatedString (pos : Position)
  /-- A second declaration of a name in one scope. -/
  | duplicateDeclaration (name : String)
  /-- A name that no visible scope declares. -/
  | undeclaredVariable (name : String)
  /-- Operands of kinds that an operator does not take; a unary operator has no right one. -/
  | operandKinds (operator left right : String) (pos : Position)
  /-- A call with too few arguments. -/
  | missingArguments (name : String) (wanted given : Int) (pos : Position)
  /-- A call of something that is no function. -/
  | notCallable (name kind : String) (pos : Position)
  /-- A division or remainder by zero. -/
  | divisionByZero (pos : Position)
  /-- A call beyond the permitted depth. -/
  | tooDeep (name : String) (limit : Int) (pos : Position)
  deriving DecidableEq, Repr, Inhabited

namespace Fault

/-- The wording of a fault. -/
def message : Fault → String
  | unexpected got expected reason pos =>
      if !reason.isEmpty then s!"invalid syntax: {reason}, got {got.name} at {pos.render}"
      else if expected.isEmpty then s!"invalid syntax: unexpected {got.name} at {pos.render}"
      else
        let names := ", ".intercalate (expected.map Kind.name)
        s!"invalid syntax: got {got.name}, expected one of [{names}] at {pos.render}"
  | invalidCharacter code pos => s!"invalid character: {Quoted.code code} at {pos.render}"
  | unterminatedString pos => s!"unterminated string starting at {pos.render}"
  | duplicateDeclaration name => s!"variable already declared: {name}"
  | undeclaredVariable name => s!"undeclared variable: {name}"
  | operandKinds operator left right pos =>
      if right.isEmpty then s!"unsupported operand kind for {operator}: {left} at {pos.render}"
      else s!"unsupported operand kinds for {operator}: {left} and {right} at {pos.render}"
  | missingArguments name wanted given pos =>
      s!"{name} expects {wanted} arguments, got {given} at {pos.render}"
  | notCallable name kind pos => s!"{name} is a {kind}, not a function at {pos.render}"
  | divisionByZero pos => s!"division by zero at {pos.render}"
  | tooDeep name limit pos =>
      s!"maximum call depth {limit} exceeded calling {name} at {pos.render}"

end Fault

end Offside
