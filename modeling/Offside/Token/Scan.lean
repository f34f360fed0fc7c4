import Offside.Halt
import Offside.Text.Blank
import Offside.Text.DecimalDigit
import Offside.Text.Letter
import Offside.Token.Basic

/-!
# Reading tokens off a source

A source is the list of its runes, each with its place. One scan passes over white space and
comments and takes the longest lexeme that starts there. A source either ends after its last rune
or is broken there; a broken source refuses every look beyond what it holds, and the runes taken
before the refusal stay taken.
-/

set_option autoImplicit false

namespace Offside

/-- A rune and the place where it stands. -/
structure Spot where
  /-- The rune. -/
  rune : Rune
  /-- Its place. -/
  pos : Position
  deriving DecidableEq, Repr, Inhabited

namespace Spot

/-- The character read at a spot. -/
def char (s : Spot) : Char := s.rune.toChar

/-- The runes with their places, the first standing at `start`. -/
def locate (start : Position) : List Rune → List Spot
  | [] => []
  | r :: rest => ⟨r, start⟩ :: locate (start.advance r.toChar) rest

end Spot

/-- The part of a source that is still to be read. -/
structure Source where
  /-- The runes to come, with their places. -/
  rest : List Spot
  /-- The place after the last rune. -/
  finish : Position
  /-- Whether reading beyond the last rune fails, where otherwise the source ends. -/
  broken : Bool
  deriving DecidableEq, Repr, Inhabited

namespace Source

/-- A text as a source that is read from its start. -/
def ofText (t : Text) (broken : Bool) : Source :=
  { rest := Spot.locate .start t.runes
    finish := t.chars.foldl Position.advance .start
    broken := broken }

end Source

namespace Scan

/-- Whether a character can start a name. -/
def startsName (c : Char) : Bool := c == '_' || Text.isLetter c

/-- Whether a character can go on a name. -/
def continuesName (c : Char) : Bool := startsName c || Text.isDecimalDigit c

/-- Whether a character is an ASCII digit. -/
def isDigit (c : Char) : Bool := '0' ≤ c && c ≤ '9'

/-- Whether a comment stops in front of a character. -/
def endsComment (c : Char) : Bool := c == '\n' || c == '\x00'

/-- Whether the first of the spots holds the given character. -/
def startsWith (c : Char) : List Spot → Bool
  | [] => false
  | s :: _ => s.char == c

/-- What is left after white space and comments; line breaks are kept. -/
def afterGap : (inComment : Bool) → List Spot → List Spot
  | _, [] => []
  | true, s :: rest => if endsComment s.char then s :: rest else afterGap true rest
  | false, s :: rest =>
      if s.char == '/' && startsWith '/' rest then afterGap true rest
      else if s.char != '\n' && Text.isBlank s.char then afterGap false rest
      else s :: rest

/-- Whether a source that holds these spots cannot show two more bytes. -/
def isShort : List Spot → Bool
  | [] => true
  | [s] => s.rune.width < 2
  | _ => false

/-- The rest of a number after its first digits: the characters taken, whether a point is among
them, whether a broken source refused a look ahead, and the spots left. -/
structure NumberTail where
  /-- The characters taken. -/
  chars : List Char
  /-- Whether the number has a point. -/
  hasPoint : Bool
  /-- Whether a look ahead was refused. -/
  refused : Bool
  /-- The spots left. -/
  rest : List Spot

/-- Takes digits, and once a point that a digit follows. -/
def numberTail (broken : Bool) : (hasPoint : Bool) → List Spot → NumberTail
  | hasPoint, [] => ⟨[], hasPoint, broken, []⟩
  | hasPoint, s :: rest =>
      if broken && isShort (s :: rest) then ⟨[], hasPoint, true, s :: rest⟩
      else if isDigit s.char then
        let tail := numberTail broken hasPoint rest
        { tail with chars := s.char :: tail.chars }
      else if s.char == '.' && !hasPoint && rest.head?.any (fun d => isDigit d.char) then
        let tail := numberTail broken true rest
        { tail with chars := s.char :: tail.chars }
      else ⟨[], hasPoint, false, s :: rest⟩

/-- How the rest of a string ends. -/
inductive StringEnd where
  /-- With its closing quote. -/
  | closed
  /-- Without one, at a line break or at the end of the source. -/
  | unclosed
  /-- With a look beyond a broken source. -/
  | refused
  deriving DecidableEq, Repr, Inhabited

/-- The rest of a string after its opening quote. -/
structure StringTail where
  /-- The characters it stands for. -/
  chars : List Char
  /-- How it ends. -/
  ending : StringEnd
  /-- The spots left. -/
  rest : List Spot

/-- How a string ends when the source has no more runes. -/
def exhausted (broken : Bool) : StringEnd := if broken then .refused else .unclosed

/-- What a character after a backslash stands for. -/
def unescape (c : Char) : Char :=
  if c == 'n' then '\n' else if c == 't' then '\t' else c

/-- Takes the rest of a string, undoing its escapes. -/
def stringTail (broken : Bool) : List Spot → StringTail
  | [] => ⟨[], exhausted broken, []⟩
  | s :: rest =>
      if s.char == '\n' then ⟨[], .unclosed, rest⟩
      else if s.char == '"' then ⟨[], .closed, rest⟩
      else if s.char == '\\' then
        match rest with
        | [] => ⟨[], exhausted broken, []⟩
        | e :: rest =>
            let tail := stringTail broken rest
            { tail with chars := unescape e.char :: tail.chars }
      else
        let tail := stringTail broken rest
        { tail with chars := s.char :: tail.chars }

/-- The kind of a sign that is always one character long; the slash is one unless a second
slash makes it a comment. -/
def sign? (c : Char) : Option Kind :=
  match c with
  | '+' => some .plus
  | '*' => some .times
  | '%' => some .modulo
  | '/' => some .divide
  | '(' => some .leftParen
  | ')' => some .rightParen
  | '|' => some .bar
  | ':' => some .colon
  | ',' => some .comma
  | _ => none

/-- A sign that a second character makes longer. -/
structure Extensible where
  /-- The kind of the sign alone, if it can stand alone. -/
  alone : Option Kind
  /-- The character that extends it. -/
  second : Char
  /-- The kind of the extended sign. -/
  extended : Kind

/-- The signs that a second character makes longer. -/
def extensible? (c : Char) : Option Extensible :=
  match c with
  | '=' => some ⟨some .assign, '=', .equal⟩
  | '!' => some ⟨none, '=', .notEqual⟩
  | '>' => some ⟨some .greater, '=', .greaterEqual⟩
  | '<' => some ⟨some .less, '=', .lessEqual⟩
  | '-' => some ⟨some .minus, '>', .arrow⟩
  | _ => none

/-- A token of the given characters, or the reason why there is none, with the spots left. -/
abbrev Lexeme := Except Halt Token × List Spot

/-- The token with the given kind and characters. -/
def lexeme (kind : Kind) (chars : List Char) (pos : Position) (rest : List Spot) : Lexeme :=
  (.ok ⟨kind, String.ofList chars, pos⟩, rest)

/-- The fault of a character that starts no token. -/
def invalid (s : Spot) (rest : List Spot) : Lexeme :=
  (.error (.fault (.invalidCharacter s.char.toNat s.pos)), rest)

/-- The sign that starts with `s` and may be extended. -/
def extensibleSign (broken : Bool) (e : Extensible) (s : Spot) (rest : List Spot) : Lexeme :=
  if broken && rest.isEmpty then (.error .readFailed, rest)
  else if startsWith e.second rest then
    lexeme e.extended [s.char, e.second] s.pos rest.tail
  else match e.alone with
    | some kind => lexeme kind [s.char] s.pos rest
    | none => invalid s rest

/-- The sign that consists of `s` alone. -/
def plainSign (broken : Bool) (kind : Kind) (s : Spot) (rest : List Spot) : Lexeme :=
  if kind == .divide && broken && rest.isEmpty then (.error .readFailed, rest)
  else lexeme kind [s.char] s.pos rest

/-- The string whose opening quote is `s`. -/
def string (broken : Bool) (s : Spot) (rest : List Spot) : Lexeme :=
  let tail := stringTail broken rest
  match tail.ending with
  | .closed => lexeme .string tail.chars s.pos tail.rest
  | .unclosed => (.error (.fault (.unterminatedString s.pos)), tail.rest)
  | .refused => (.error .readFailed, tail.rest)

/-- The number whose first digit is `s`. -/
def number (broken : Bool) (s : Spot) (rest : List Spot) : Lexeme :=
  let tail := numberTail broken false rest
  if tail.refused then (.error .readFailed, tail.rest)
  else lexeme (if tail.hasPoint then .float else .integer) (s.char :: tail.chars) s.pos tail.rest

/-- The name or reserved word whose first character is `s`. -/
def word (broken : Bool) (s : Spot) (rest : List Spot) : Lexeme :=
  let taken := rest.takeWhile fun r => continuesName r.char
  let left := rest.dropWhile fun r => continuesName r.char
  if broken && left.isEmpty then (.error .readFailed, left)
  else
    let chars := s.char :: taken.map Spot.char
    lexeme (.ofWord (String.ofList chars)) chars s.pos left

/-- The lexeme that starts with `s`, which is neither white space nor the start of a comment. -/
def lexemeAt (broken : Bool) (s : Spot) (rest : List Spot) : Lexeme :=
  if s.char == '\n' then lexeme .newline [] s.pos rest
  else match extensible? s.char, sign? s.char with
    | some e, _ => extensibleSign broken e s rest
    | none, some kind => plainSign broken kind s rest
    | none, none =>
        if s.char == '"' then string broken s rest
        else if isDigit s.char then number broken s rest
        else if startsName s.char then word broken s rest
        else invalid s rest

end Scan

namespace Source

/-- What a source gives when it has no more runes: the end, or a refusal. -/
def final (s : Source) : Except Halt Token :=
  if s.broken then .error .readFailed else .ok ⟨.endOfInput, "", s.finish⟩

/-- The next token of a source, or the reason why there is none, and what is left of the source.
At its end a source gives the same answer again and again. -/
def scan (s : Source) : Except Halt Token × Source :=
  match Scan.afterGap false s.rest with
  | [] => (s.final, { s with rest := [] })
  | first :: rest =>
      let (outcome, left) := Scan.lexemeAt s.broken first rest
      (outcome, { s with rest := left })

end Source

end Offside
