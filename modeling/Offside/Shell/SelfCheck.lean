import Offside.Session

/-!
# Self checks

Expressions with their known values. Each is run in a session of its own and reported on a line.
-/

set_option autoImplicit false

namespace Offside

/-- An expression with the value it should have. -/
structure SelfCheck where
  /-- The expression. -/
  source : String
  /-- Its value. -/
  wanted : Int64
  deriving DecidableEq, Repr, Inhabited

namespace SelfCheck

/-- The known values. -/
def all : List SelfCheck :=
  [⟨"2 * 3 + 1", 7⟩,
    ⟨"5 * 3 + 4 + 2 % 2 * 8", 19⟩,
    ⟨"7 + 3 * (10 / (12 / (3 + 1) - 1))", 22⟩,
    ⟨"7 + 3 * (10 / (12 / (3 + 1) - 1)) / (2 + 3) - 5 - 3 + (8)", 10⟩,
    ⟨"7 + (((3 + 2)))", 12⟩,
    ⟨"- 3", -3⟩,
    ⟨"+ 3", 3⟩,
    ⟨"5 - - - + - 3", 8⟩,
    ⟨"5 - - - + - (3 + 4) - +2", 10⟩]

/-- What came of a check: whether it holds, and the line that reports it. -/
structure Report where
  /-- Whether the expression has its value. -/
  holds : Bool
  /-- The line of the report, with its line feed. -/
  line : Text
  deriving DecidableEq, Repr, Inhabited

/-- Runs a check. -/
def run (check : SelfCheck) : Report :=
  let session := Session.start ⟨true, Options.defaultMaxDepth⟩ [] false none
  let wanted := Value.int check.wanted
  let said (parts : List Text) : Text := parts.flatten ++ [lineFeed]
  match (session.runText Session.ampleFuel none (Text.ofString check.source)).1 with
  | .error h =>
      ⟨false, said [Text.ofString ("FAIL " ++ check.source ++ ": " ++ h.message)]⟩
  | .ok v =>
      if v.equal wanted then
        ⟨true, said [Text.ofString ("ok   " ++ check.source ++ " = "), v.text]⟩
      else
        ⟨false, said [Text.ofString ("FAIL " ++ check.source ++ ": got "), v.text,
          Text.ofString ", want ", wanted.text]⟩

/-- The reports of all checks. -/
def reports : List Report := all.map run

/-- The number of checks that fail. -/
def failures : Nat := reports.countP fun r => !r.holds

/-- The lines of all reports. -/
def report : Text := reports.flatMap Report.line

end SelfCheck

end Offside
