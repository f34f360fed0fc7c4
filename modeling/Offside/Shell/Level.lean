import Offside.Text.Quoted
import Offside.Text.UpperCase

/-!
# Log levels

A log level has a name, a letter and, between the extremes, a digit. In names, case does not
matter.
-/

set_option autoImplicit false

namespace Offside

/-- How much is logged, from least to most. -/
inductive Level where
  /-- What makes going on impossible. -/
  | critical
  /-- What went wrong. -/
  | error
  /-- What might go wrong. -/
  | warning
  /-- What is worth noticing. -/
  | notice
  /-- What is going on. -/
  | info
  /-- What helps to find mistakes. -/
  | debug
  /-- Every step. -/
  | trace
  deriving DecidableEq, Repr, Inhabited

namespace Level

/-- The level with the given name in upper case. -/
def ofUpper? : String → Option Level
  | "CRITICAL" | "C" => some critical
  | "ERROR" | "0" | "E" => some error
  | "WARNING" | "1" | "W" => some warning
  | "NOTICE" | "2" | "N" => some notice
  | "INFO" | "3" | "I" => some info
  | "DEBUG" | "4" | "D" => some debug
  | "TRACE" | "5" | "T" => some trace
  | _ => none

/-- The level with the given name, or the complaint that there is none. -/
def ofName (name : String) : Except String Level :=
  let upper := name.map Text.upperCase
  match ofUpper? upper with
  | some level => .ok level
  | none =>
      .error ("bad log level " ++ Quoted.string name ++ ": couldn't parse log level " ++ upper)

end Level

end Offside
