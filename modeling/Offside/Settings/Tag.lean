import Offside.Decimal.Numeral
import Offside.Text.Split

/-!
# Tags of unquoted scalars

A scalar without quotes is read as what its text looks like: nothing, a truth word, a number, a
date, or else text.
-/

set_option autoImplicit false

namespace Offside.Settings

/-- What an unquoted scalar is read as. -/
inductive Tag where
  /-- Nothing. -/
  | null
  /-- A truth value. -/
  | bool (b : Bool)
  /-- A whole number. -/
  | int
  /-- A number with a fraction or an exponent. -/
  | float
  /-- A date, possibly with a time. -/
  | timestamp
  /-- Text. -/
  | str
  deriving DecidableEq, Repr, Inhabited

namespace Tag

/-- The name of a tag. -/
def name : Tag → String
  | null => "!!null"
  | bool _ => "!!bool"
  | int => "!!int"
  | float => "!!float"
  | timestamp => "!!timestamp"
  | str => "!!str"

/-- The words that are read as something other than text. -/
def words : List (String × Tag) :=
  (["", "~", "null", "Null", "NULL"].map fun w => (w, null)) ++
  (["y", "Y", "yes", "Yes", "YES", "true", "True", "TRUE", "on", "On", "ON"].map
    fun w => (w, bool true)) ++
  (["n", "N", "no", "No", "NO", "false", "False", "FALSE", "off", "Off", "OFF"].map
    fun w => (w, bool false)) ++
  ([".nan", ".NaN", ".NAN", ".inf", ".Inf", ".INF", "+.inf", "+.Inf", "+.INF", "-.inf", "-.Inf",
    "-.INF"].map fun w => (w, float))

/-- The value of a hexadecimal digit. -/
def baseDigit? (c : Char) : Option Nat :=
  let n := c.toNat
  if 0x30 ≤ n ∧ n ≤ 0x39 then some (n - 0x30)
  else if 0x61 ≤ n ∧ n ≤ 0x66 then some (n - 0x57)
  else if 0x41 ≤ n ∧ n ≤ 0x46 then some (n - 0x37)
  else none

/-- Digits of the given base, at least one. -/
def isBaseWhole (base : Nat) (cs : List Char) : Bool :=
  !cs.isEmpty && cs.all fun c => (baseDigit? c).any (· < base)

/-- The number that digits of the given base stand for. -/
def ofBaseDigits (base : Nat) (cs : List Char) : Nat :=
  cs.foldl (fun n c => base * n + (baseDigit? c).getD 0) 0

/-- What the magnitude of a whole number has to stay below. With a sign it has to fit into a signed
word, and without one into an unsigned word. -/
def magnitudeBound (signed negative : Bool) : Nat :=
  if negative then Nat.pow 2 63 + 1 else if signed then Nat.pow 2 63 else Nat.pow 2 64

/-- Whether characters are a whole number with an optional sign in the base that the text after the
sign announces, as `digitsOf` splits it. -/
def isSignedWhole (digitsOf : List Char → Nat × List Char) (cs : List Char) : Bool :=
  let (negative, body) := Numeral.splitSign cs
  let (base, ds) := digitsOf body
  isBaseWhole base ds &&
    ofBaseDigits base ds < magnitudeBound (body.length < cs.length) negative

/-- The base that the front of a number announces, and the digits behind it. -/
def announcedBase : List Char → Nat × List Char
  | '0' :: 'x' :: rest | '0' :: 'X' :: rest => (16, rest)
  | '0' :: 'b' :: rest | '0' :: 'B' :: rest => (2, rest)
  | '0' :: 'o' :: rest | '0' :: 'O' :: rest => (8, rest)
  | '0' :: c :: rest => (8, c :: rest)
  | cs => (10, cs)

/-- Whether characters are a whole number. The sign of a binary one may also stand behind the mark
of its base. -/
def isInt (cs : List Char) : Bool :=
  isSignedWhole announcedBase cs || match cs with
    | '0' :: 'b' :: rest => isSignedWhole (fun ds => (2, ds)) rest
    | _ => false

/-- Whether characters are a decimal, with an optional sign and exponent, that is not too large
for a double. -/
def isFloat (cs : List Char) : Bool := (Numeral.float? (.ofList cs)).any Float.isFinite

/-- Whether every underscore stands between two digits. -/
def underscoresSeparate : (afterDigit : Bool) → List Char → Bool
  | _, [] => true
  | afterDigit, c :: rest =>
      (c != '_' || (afterDigit && rest.head?.any Numeral.isDigit)) &&
        underscoresSeparate (Numeral.isDigit c) rest

/-- The value of one or two digits. -/
def shortNumber? (cs : List Char) : Option Nat :=
  if Numeral.isWhole cs && cs.length ≤ 2 then some (Numeral.ofDigits cs) else none

/-- The number of days in a month. -/
def daysIn (year month : Nat) : Nat :=
  let leap := year % 4 = 0 ∧ (year % 100 ≠ 0 ∨ year % 400 = 0)
  if month = 2 then (if leap then 29 else 28)
  else if month ∈ [4, 6, 9, 11] then 30
  else 31

/-- Whether characters are a date: a year of four digits, a month and a day. -/
def isDate (cs : List Char) : Bool :=
  match Text.splitOn '-' cs with
  | [year, month, day] =>
      match shortNumber? month, shortNumber? day with
      | some m, some d =>
          Numeral.isWhole year && year.length == 4 && 1 ≤ m && m ≤ 12 && 1 ≤ d &&
            d ≤ daysIn (Numeral.ofDigits year) m
      | _, _ => false
  | _ => false

/-- Whether characters are a time of day, possibly with a fraction of the seconds after a point or a
comma. -/
def isTime (cs : List Char) : Bool :=
  match Text.splitOn ':' cs with
  | [hour, minute, second] =>
      let (whole, fraction?) := Numeral.splitAtFirst (fun c => c == '.' || c == ',') second
      match shortNumber? hour, shortNumber? minute, shortNumber? whole with
      | some h, some m, some s => h < 24 && m < 60 && s < 60 && fraction?.all Numeral.isWhole
      | _, _, _ => false
  | _ => false

/-- Whether characters are a time of day with the zone it is counted in. A zone is away from the
common time by a day and an hour at most, both ends included. -/
def isZonedTime (cs : List Char) : Bool :=
  match cs.reverse with
  | 'Z' :: time => isTime time.reverse
  | m₂ :: m₁ :: ':' :: h₂ :: h₁ :: sign :: time =>
      (sign == '+' || sign == '-') && [h₁, h₂, m₁, m₂].all Numeral.isDigit &&
        Numeral.ofDigits [h₁, h₂] ≤ 24 && Numeral.ofDigits [m₁, m₂] ≤ 60 && isTime time.reverse
  | _ => false

/-- Whether characters are a date, possibly with a time: after a letter a time with its zone, and
after blanks a time without one. -/
def isTimestamp (cs : List Char) : Bool :=
  let inDate (c : Char) : Bool := Numeral.isDigit c || c == '-'
  isDate (cs.takeWhile inDate) && match cs.dropWhile inDate with
    | [] => true
    | 'T' :: time | 't' :: time => isZonedTime time
    | ' ' :: time => isTime (time.dropWhile (· == ' '))
    | _ => false

/-- Whether characters are a whole number in groups of sixty, such as a time of day. -/
def isSexagesimal (cs : List Char) : Bool :=
  let (_, ds) := Numeral.splitSign cs
  let digitOrMark (c : Char) : Bool := Numeral.isDigit c || c == '_'
  let (groups, fraction?) := Numeral.splitAtFirst (· == '.') ds
  match Text.splitOn ':' groups with
  | first :: second :: more =>
      first.head?.any Numeral.isDigit && first.all digitOrMark &&
        fraction?.all (·.all digitOrMark) && (second :: more).all fun group =>
          (shortNumber? group).any (· < 60)
  | _ => false

/-- What unquoted text is read as, where a date counts as one only if `dates`. -/
def resolve (dates : Bool) (s : String) : Tag :=
  match words.lookup s with
  | some tag => tag
  | none =>
      let cs := s.toList
      let digits := cs.filter (· != '_')
      match cs with
      | '.' :: _ => if underscoresSeparate false cs && isFloat digits then float else str
      | c :: _ =>
          if c == '+' || c == '-' || Numeral.isDigit c then
            if dates && isTimestamp cs then timestamp
            else if isInt digits then int
            else if isFloat digits then float
            else str
          else str
      | [] => null

/-- What unquoted text is read as. -/
def ofPlain (s : String) : Tag := resolve true s

end Tag

end Offside.Settings
