import Offside.Fault

/-!
# Why a computation stops without a result

A computation stops early because the script has a fault, because its surroundings refuse (the
source or the input cannot be read, the output cannot be written, the run is cancelled), because
of a defect that no well-formed program reaches, or because the permitted number of steps is used
up. The wording of each is in `Halt.message`.
-/

set_option autoImplicit false

namespace Offside

/-- A state of affairs that no program built by the grammar reaches. -/
inductive Defect where
  /-- A tree with a missing node was evaluated or printed. -/
  | missingNode
  /-- An operator that is not unary stands in a unary operation. -/
  | unaryOperator (kind : Kind)
  /-- An operator that is not binary stands in a binary operation. -/
  | binaryOperator (kind : Kind)
  /-- A value of the named kind was read as a number. -/
  | notNumeric (kind : String)
  /-- A frame was released that is not the topmost one, or is the root. -/
  | releaseOrder (slot top : Nat)
  /-- A slot was used that holds no frame. -/
  | noFrame (slot size : Nat)
  /-- An argument was used that was not given. -/
  | noArgument (index size : Nat)
  deriving DecidableEq, Repr, Inhabited

/-- The wording of a defect. -/
def Defect.message : Defect → String
  | missingNode => "unhandled node <nil>"
  | unaryOperator kind => s!"unhandled unary operator {kind.name}"
  | binaryOperator kind => s!"unhandled binary operator {kind.name}"
  | notNumeric kind => s!"ToFloat on {kind}"
  | releaseOrder slot top => s!"release of frame {slot} while frame {top} is on top"
  | noFrame index size | noArgument index size =>
      s!"runtime error: index out of range [{index}] with length {size}"

/-- Why a computation stops without a result. -/
inductive Halt where
  /-- The script has a fault. -/
  | fault (f : Fault)
  /-- The source or the input cannot be read further. -/
  | readFailed
  /-- The output takes no more. -/
  | writeFailed
  /-- The run was cancelled. -/
  | cancelled
  /-- A defect was reached. -/
  | defect (d : Defect)
  /-- The permitted number of steps is used up. -/
  | outOfFuel
  deriving DecidableEq, Repr, Inhabited

/-- The wording of a stop. -/
def Halt.message : Halt → String
  | fault f => f.message
  | readFailed => "read failed"
  | writeFailed => "write failed"
  | cancelled => "context canceled"
  | defect d => d.message
  | outOfFuel => "out of fuel"

end Offside
