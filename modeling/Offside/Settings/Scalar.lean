import Offside.Settings.Character
import Offside.Settings.Tag

/-!
# Writing scalars

A text is written as a scalar that is read back as that text: without quotes where that is
possible, in single quotes where the characters ask for it, and in double quotes where the text
would be taken for something else or has characters that cannot be written as they are. A text with
a line feed is written line by line below its key. Where a line has grown long, a scalar of the
other styles goes on in the next one.
-/

set_option autoImplicit false

namespace Offside.Settings

/-- How a scalar is written. -/
inductive Style where
  /-- Without quotes. -/
  | plain
  /-- In single quotes. -/
  | single
  /-- In double quotes. -/
  | double
  /-- Line by line. -/
  | literal
  deriving DecidableEq, Repr, Inhabited

/-- The characters that cannot start unquoted text. -/
def indicators : List Char :=
  ['#', ',', '[', ']', '\x7b', '\x7d', '&', '*', '!', '|', '>', singleQuote, '"', '%', '@', '\x60']

/-- Whether the inside of a text would be taken for a key or a comment. -/
def hasBreakingInside : (afterBlank : Bool) → List Char → Bool
  | _, [] => false
  | afterBlank, c :: rest =>
      (c == ':' && blankFollows rest) || (c == '#' && afterBlank) ||
        hasBreakingInside (c == ' ') rest

/-- Whether a character of the first kind stands directly before one of the second kind. -/
def hasPair (first second : Char → Bool) : List Char → Bool
  | [] => false
  | c :: rest => (first c && rest.head?.any second) || hasPair first second rest

namespace Style

/-- Whether a text can be written line by line. -/
def allowsLiteral (cs : List Char) : Bool :=
  cs.all isWritable && !hasPair (· == ' ') isBreak cs && cs.getLast? != some ' '

/-- Whether a text can be written in single quotes. -/
def allowsSingle (cs : List Char) : Bool :=
  cs.all isWritable && !hasPair (· == ' ') isBreak cs && !hasPair isBreak (· == ' ') cs

/-- Whether a text can be written without quotes. -/
def allowsPlain (cs : List Char) : Bool :=
  match cs with
  | [] => false
  | c :: rest =>
      cs.all (fun d => isWritable d && !isBreak d) &&
        !indicators.contains c && !((c == '-' || c == '?' || c == ':') && blankFollows rest) &&
        c != ' ' && cs.getLast? != some ' ' &&
        !(['-', '-', '-'].isPrefixOf cs) && !(['.', '.', '.'].isPrefixOf cs) &&
        !hasBreakingInside false cs

/-- The style in which a text is written. -/
def ofText (s : String) : Style :=
  let cs := s.toList
  if cs.contains '\n' then (if allowsLiteral cs then literal else double)
  else if Tag.ofPlain s != .str || Tag.isSexagesimal cs then double
  else if allowsPlain cs then plain
  else if allowsSingle cs then single
  else double

end Style

/-- The upper-case hexadecimal digit of a number below sixteen. -/
def hexDigit (n : Nat) : Char :=
  if n < 10 then Char.ofNat (0x30 + n) else Char.ofNat (0x37 + n)

/-- The last `count` hexadecimal digits of a number. -/
def hexDigits : (count : Nat) → Nat → List Char
  | 0, _ => []
  | count + 1, n => hexDigits count (n / 16) ++ [hexDigit (n % 16)]

/-- The escape of a character in double quotes. -/
def escape (c : Char) : List Char :=
  match shortEscapes.lookup c.toNat with
  | some letter => ['\\', letter]
  | none =>
      if c.toNat < 0x100 then '\\' :: 'x' :: hexDigits 2 c.toNat
      else if c.toNat < 0x10000 then '\\' :: 'u' :: hexDigits 4 c.toNat
      else '\\' :: 'U' :: hexDigits 8 c.toNat

/-- Whether a character is escaped in double quotes. -/
def needsEscape (c : Char) : Bool := !isWritable c || isBreak c || c == '"' || c == '\\'

/-- The column after which a scalar goes on in the next line. -/
def longestLine : Nat := 80

/-- The blanks before a further line of a scalar. -/
def margin : List Char := [' ', ' ']

/-- Text without quotes from a column on. A single blank behind a long line becomes a line break. -/
def plainFrom : (afterBlank : Bool) → (column : Nat) → List Char → List Char
  | _, _, [] => []
  | afterBlank, column, c :: rest =>
      if c == ' ' && !afterBlank && longestLine < column && rest.head? != some ' ' then
        '\n' :: margin ++ plainFrom true margin.length rest
      else c :: plainFrom (c == ' ') (column + 1) rest

/-- Text in single quotes from a column on, with its quote at the end. A single blank behind a long
line becomes a line break, unless it is the first or the last character. -/
def singleFrom :
    (first afterBlank afterBreak : Bool) → (column : Nat) → List Char → List Char
  | _, _, _, _, [] => [singleQuote]
  | first, afterBlank, afterBreak, column, c :: rest =>
      if c == ' ' then
        if !afterBlank && longestLine < column && !first && !rest.isEmpty &&
            rest.head? != some ' ' then
          '\n' :: margin ++ singleFrom false true afterBreak margin.length rest
        else c :: singleFrom false true afterBreak (column + 1) rest
      else if isBreak c then c :: singleFrom false afterBlank true 0 rest
      else
        let written := (if afterBreak then margin else []) ++
          (if c == singleQuote then [c, c] else [c])
        written ++ singleFrom false false false (column + written.length) rest

/-- Text in double quotes from a column on, with its quote at the end; if `escapeAll`, every
character is escaped. The first of several blanks behind a long line becomes a line break, unless it
is the first or the last character. -/
def doubleFrom (escapeAll : Bool) :
    (first afterBlank : Bool) → (column : Nat) → List Char → List Char
  | _, _, _, [] => ['"']
  | first, afterBlank, column, c :: rest =>
      if escapeAll || needsEscape c then
        escape c ++ doubleFrom escapeAll false false (column + (escape c).length) rest
      else if c == ' ' && !afterBlank && longestLine < column && !first && !rest.isEmpty then
        let start := margin ++ (if rest.head? == some ' ' then ['\\'] else [])
        '\n' :: start ++ doubleFrom escapeAll false true start.length rest
      else c :: doubleFrom escapeAll false (c == ' ') (column + 1) rest

/-- The lines of a text below its key; a line with something on it is indented. -/
def literalLines : (atStart : Bool) → List Char → List Char
  | _, [] => []
  | atStart, c :: rest =>
      if isBreak c then c :: literalLines true rest
      else (if atStart then margin else []) ++ c :: literalLines false rest

/-- What stands before the lines of a text: how far they are indented if that cannot be seen, and
what becomes of the line breaks at the end unless there is just one. -/
def literalHeader (cs : List Char) : List Char :=
  let indented := cs.head?.any fun c => c == ' ' || isBreak c
  let kept := match cs.reverse with
    | [] => ['-']
    | last :: before =>
        if !isBreak last then ['-']
        else if before.isEmpty || before.head?.any isBreak then ['+']
        else []
  '|' :: (if indented then ['2'] else []) ++ kept ++ ['\n']

/-- A text as a scalar that starts in a column, to the end of its last line. -/
def scalarFrom (column : Nat) (s : String) : List Char :=
  let cs := s.toList
  match Style.ofText s with
  | .plain => plainFrom false column cs ++ ['\n']
  | .single => singleQuote :: singleFrom true false false (column + 1) cs ++ ['\n']
  | .double =>
      '"' :: doubleFrom (cs.head? == some byteOrderMark) true false (column + 1) cs ++ ['\n']
  | .literal =>
      literalHeader cs ++ literalLines true cs ++ (if cs.getLast?.any isBreak then [] else ['\n'])

/-- A key with a text under it. -/
def entryOf (key s : String) : String :=
  let start := key.toList ++ [':', ' ']
  .ofList (start ++ scalarFrom start.length s)

end Offside.Settings
