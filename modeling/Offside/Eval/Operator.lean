import Offside.Decimal.Remainder
import Offside.Halt
import Offside.Value

/-!
# Operators on values

Whole numbers wrap around; their quotient is a double; the remainder lies on the divisor's side.
An operation with a double in it is done on doubles. The logical operators take truth values only.
-/

set_option autoImplicit false

namespace Offside

namespace Operator

/-- What an operator gives, or why it gives nothing. -/
abbrev Outcome := Except Halt Value

/-- The fault of operands whose kinds do not fit. -/
def misfit {α : Type} (op : Kind) (left right : String) (pos : Position) : Except Halt α :=
  .error (.fault (.operandKinds op.symbol left right pos))

/-- The fault of a zero divisor. -/
def byZero (pos : Position) : Outcome := .error (.fault (.divisionByZero pos))

/-- The remainder of a division that rounds down: it is zero or has the sign of the divisor. -/
def flooredMod (l r : Int64) : Int64 :=
  let m := l % r
  if m != 0 && (decide (m < 0) != decide (r < 0)) then m + r else m

/-- An operator before a value. -/
def unary (op : Kind) (pos : Position) (v : Value) : Outcome :=
  match op, v with
  | .notWord, .bool b => .ok (.bool !b)
  | .plus, .int n => .ok (.int n)
  | .plus, .float x => .ok (.float x)
  | .minus, .int n => .ok (.int (-n))
  | .minus, .float x => .ok (.float (-x))
  | .notWord, _ | .plus, _ | .minus, _ => misfit op v.kind.name "" pos
  | _, _ => .error (.defect (.unaryOperator op))

/-- An operator between two whole numbers. -/
def onInts (op : Kind) (pos : Position) (l r : Int64) : Outcome :=
  match op with
  | .plus => .ok (.int (l + r))
  | .minus => .ok (.int (l - r))
  | .times => .ok (.int (l * r))
  | .divide => if r = 0 then byZero pos else .ok (.float (l.toFloat / r.toFloat))
  | .modulo => if r = 0 then byZero pos else .ok (.int (flooredMod l r))
  | .less => .ok (.bool (l < r))
  | .greater => .ok (.bool (l > r))
  | .lessEqual => .ok (.bool (l ≤ r))
  | .greaterEqual => .ok (.bool (l ≥ r))
  | .equal => .ok (.bool (l == r))
  | .notEqual => .ok (.bool (l != r))
  | _ => .error (.defect (.binaryOperator op))

/-- An operator between two doubles. -/
def onFloats (op : Kind) (pos : Position) (l r : Float) : Outcome :=
  match op with
  | .plus => .ok (.float (l + r))
  | .minus => .ok (.float (l - r))
  | .times => .ok (.float (l * r))
  | .divide => if r == 0 then byZero pos else .ok (.float (l / r))
  | .modulo => if r == 0 then byZero pos else .ok (.float (Double.flooredRemainder l r))
  | .less => .ok (.bool (l < r))
  | .greater => .ok (.bool (l > r))
  | .lessEqual => .ok (.bool (l ≤ r))
  | .greaterEqual => .ok (.bool (l ≥ r))
  | .equal => .ok (.bool (l == r))
  | .notEqual => .ok (.bool (l != r))
  | _ => .error (.defect (.binaryOperator op))

/-- A value as a double, where it has to be a number. -/
def asFloat (v : Value) : Except Halt Float :=
  match v.toFloat? with
  | some x => .ok x
  | none => .error (.defect (.notNumeric v.kind.name))

/-- An operator between two numbers: on whole numbers if both are, and otherwise on doubles. -/
def onNumbers (op : Kind) (pos : Position) (left right : Value) : Outcome :=
  match left, right with
  | .int l, .int r => onInts op pos l r
  | _, _ => do
      let l ← asFloat left
      let r ← asFloat right
      onFloats op pos l r

/-- An operator between two values. -/
def binary (op : Kind) (pos : Position) (left right : Value) : Outcome :=
  match op, left, right with
  | .andWord, .bool l, .bool r => .ok (.bool (l && r))
  | .orWord, .bool l, .bool r => .ok (.bool (l || r))
  | .andWord, _, _ | .orWord, _, _ => misfit op left.kind.name right.kind.name pos
  | _, _, _ =>
      if left.isNumeric && right.isNumeric then onNumbers op pos left right
      else misfit op left.kind.name right.kind.name pos

end Operator

end Offside
