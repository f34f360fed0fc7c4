import Offside.Settings.Cursor
import Offside.Settings.Lexeme.Basic

/-!
# Cutting a settings file into lexemes

A scan goes from lexeme to lexeme. The column in which a line starts opens and closes blocks. What
may be a key is only known to be one when a colon follows it on its line, so the scan remembers
where a key may have begun and puts the lexemes for it there afterwards. When the scan fails, what
stands behind the first undecided key is not known.
-/

set_option autoImplicit false

namespace Offside.Settings

/-- The beginning of something that is a key if a colon follows. -/
structure PossibleKey where
  /-- Whether it has to be a key, since it starts a line of a mapping. -/
  required : Bool
  /-- The number of lexemes before it. -/
  number : Nat
  /-- Its place. -/
  place : Place
  deriving DecidableEq, Repr, Inhabited

/-- How many characters a key may have. -/
def longestKey : Nat := 1024

/-- Whether a key that has begun can no longer be ended at a place. -/
def PossibleKey.isLost (key : PossibleKey) (p : Place) : Bool :=
  key.place.line < p.line || key.place.index + longestKey < p.index

/-- A scan on its way through a file. -/
structure Scan where
  /-- Where the scan is. -/
  cursor : Cursor
  /-- The lexemes so far. -/
  lexemes : Array Lexeme
  /-- The column from which on a line belongs to the innermost block. -/
  least : Nat
  /-- The same of the blocks around it. -/
  outerLeast : List Nat
  /-- What may be a key, outside the innermost bracket or brace too. -/
  key : Option PossibleKey
  /-- The same outside each bracket or brace that is open. -/
  outerKeys : List (Option PossibleKey)
  /-- Whether a key may begin here. -/
  keyAllowed : Bool
  /-- Whether the end of the file has been reached. -/
  finished : Bool
  deriving DecidableEq, Repr, Inhabited

namespace Scan

/-- A scan that has not begun. -/
def start (cs : List Char) : Scan := ⟨⟨cs, ⟨0, 0, 0⟩⟩, #[], 0, [], none, [], true, false⟩

/-- Whether a bracket or a brace is open. -/
def inFlow (s : Scan) : Bool := !s.outerKeys.isEmpty

/-- Adds a lexeme that begins where the scan is. -/
def add (s : Scan) (kind : LexemeKind) : Scan :=
  { s with lexemes := s.lexemes.push ⟨kind, s.cursor.place.line⟩ }

/-- Puts a lexeme before others. -/
def insert (s : Scan) (number : Nat) (lexeme : Lexeme) : Scan :=
  { s with lexemes := s.lexemes.insertIdxIfInBounds number lexeme }

/-- Adds a lexeme with the given number of characters. -/
def take (s : Scan) (kind : LexemeKind) (count : Nat) : Scan :=
  { s.add kind with cursor := s.cursor.skip count }

/-- Gives up what may be a key. -/
def forgetKey (s : Scan) : Except Misreading Scan :=
  if s.key.any fun key => key.required then s.cursor.fail .missingColon
  else .ok { s with key := none }

/-- Gives up everything that can no longer be a key. -/
def forgetLostKeys (s : Scan) : Except Misreading Scan :=
  let lost (key : PossibleKey) : Bool := key.isLost s.cursor.place
  if (s.key :: s.outerKeys).any fun key => key.any fun k => k.required && lost k then
    s.cursor.fail .missingColon
  else
    .ok { s with
      key := s.key.filter fun k => !lost k
      outerKeys := s.outerKeys.map fun key => key.filter fun k => !lost k }

/-- Remembers that a key may begin here. -/
def rememberKey (s : Scan) : Except Misreading Scan :=
  if s.keyAllowed then do
    let s ← s.forgetKey
    let required := !s.inFlow && s.least == s.cursor.place.column + 1
    return { s with key := some ⟨required, s.lexemes.size, s.cursor.place⟩ }
  else .ok s

/-- Closes blocks, innermost first, until no line further in than `keep` belongs to one. -/
def closeBlocks (keep : Nat) : (outer : List Nat) → Scan → Scan
  | [], s => { s with outerLeast := [] }
  | next :: outer, s =>
      if keep < s.least then closeBlocks keep outer { s.add .blockEnd with least := next }
      else { s with outerLeast := next :: outer }

/-- Closes the blocks that a line does not belong to, outside brackets and braces. -/
def outdent (s : Scan) (keep : Nat) : Scan :=
  if s.inFlow then s else closeBlocks keep s.outerLeast s

/-- Opens a block in a column before the lexeme with a number, unless one is open there already or
brackets or braces are. -/
def indent (s : Scan) (column number : Nat) (lexeme : Lexeme) : Scan :=
  if s.inFlow || column < s.least then s
  else { s.insert number lexeme with least := column + 1, outerLeast := s.least :: s.outerLeast }

/-- Opens a block where the scan is. -/
def indentHere (s : Scan) (kind : LexemeKind) : Scan :=
  s.indent s.cursor.place.column s.lexemes.size ⟨kind, s.cursor.place.line⟩

/-- Passes over blanks, comments and line breaks. A tab is no blank where a key may begin. -/
def skipSpace (inFlow : Bool) : (keyAllowed inComment : Bool) → List Char → Place → Cursor × Bool
  | keyAllowed, _, [], p => (⟨[], p⟩, keyAllowed)
  | keyAllowed, inComment, c :: rest, p =>
      if isBreak c then skipSpace inFlow (keyAllowed || !inFlow) false rest p.down
      else if inComment || c == ' ' || (c == '\t' && (inFlow || !keyAllowed)) then
        skipSpace inFlow keyAllowed inComment rest (p.right 1)
      else if c == '#' then skipSpace inFlow keyAllowed true rest (p.right 1)
      else (⟨c :: rest, p⟩, keyAllowed)

/-- Moves to what comes next. -/
def toNext (s : Scan) : Scan :=
  let (cursor, keyAllowed) :=
    skipSpace s.inFlow s.keyAllowed false s.cursor.rest s.cursor.place
  { s with cursor, keyAllowed }

/-- The end of the file, which always starts a line. -/
def fileEnd (s : Scan) : Except Misreading Scan := do
  let p := s.cursor.place
  let p := if p.column == 0 then p else ⟨p.index, p.line + 1, 0⟩
  let s ← ({ s with cursor.place := p }.outdent 0).forgetKey
  return { s.add .fileEnd with keyAllowed := false, finished := true }

/-- A directive. -/
def directive (s : Scan) : Except Misreading Scan := do
  let s ← (s.outdent 0).forgetKey
  let cursor ← s.cursor.directive
  return { s.add .directive with keyAllowed := false, cursor }

/-- A document mark. -/
def documentMark (s : Scan) (kind : LexemeKind) : Except Misreading Scan := do
  let s ← (s.outdent 0).forgetKey
  return { s.take kind 3 with keyAllowed := false }

/-- An opening bracket or brace. -/
def openFlow (s : Scan) (kind : LexemeKind) : Except Misreading Scan := do
  let s ← s.rememberKey
  return { s.take kind 1 with key := none, outerKeys := s.key :: s.outerKeys, keyAllowed := true }

/-- A closing bracket or brace. -/
def closeFlow (s : Scan) (kind : LexemeKind) : Except Misreading Scan := do
  let s ← s.forgetKey
  let s := match s.outerKeys with
    | [] => s
    | key :: outer => { s with key, outerKeys := outer }
  return { s.take kind 1 with keyAllowed := false }

/-- A comma. -/
def comma (s : Scan) : Except Misreading Scan := do
  return { (← s.forgetKey).take .comma 1 with keyAllowed := true }

/-- The dash before an item. -/
def dash (s : Scan) : Except Misreading Scan := do
  if !s.inFlow && !s.keyAllowed then s.cursor.fail .strayDash
  else
    let s ← (s.indentHere .sequenceStart).forgetKey
    return { s.take .dash 1 with keyAllowed := true }

/-- The question mark before a key. -/
def question (s : Scan) : Except Misreading Scan := do
  if !s.inFlow && !s.keyAllowed then s.cursor.fail .strayKey
  else
    let s ← (s.indentHere .mappingStart).forgetKey
    return { s.take .key 1 with keyAllowed := !s.inFlow }

/-- The colon after a key. What stands before it on the line is the key, if it may be one. -/
def colon (s : Scan) : Except Misreading Scan :=
  match s.key with
  | some key =>
      let s := s.insert key.number ⟨.key, key.place.line⟩
      let s := s.indent key.place.column key.number ⟨.mappingStart, key.place.line⟩
      .ok { s.take .value 1 with key := none, keyAllowed := false }
  | none =>
      if !s.inFlow && !s.keyAllowed then s.cursor.fail .strayColon
      else .ok { (s.indentHere .mappingStart).take .value 1 with keyAllowed := !s.inFlow }

/-- A name that is given to an item or mentions one. -/
def name (s : Scan) (kind : String → LexemeKind) : Except Misreading Scan := do
  let s ← s.rememberKey
  let (name, cursor) ← s.cursor.name
  return { s.add (kind name) with keyAllowed := false, cursor }

/-- A tag. -/
def tag (s : Scan) : Except Misreading Scan := do
  let s ← s.rememberKey
  let (shorthand, text, cursor) ← s.cursor.tag
  return { s.add (.tag shorthand text) with keyAllowed := false, cursor }

/-- Text below its key. -/
def block (s : Scan) (literal : Bool) : Except Misreading Scan := do
  let s ← s.forgetKey
  let (text, cursor) ← s.cursor.block literal s.least
  return { s.add (.scalar true text) with keyAllowed := true, cursor }

/-- Quoted text. -/
def quoted (s : Scan) : Except Misreading Scan := do
  let s ← s.rememberKey
  let (text, cursor) ← s.cursor.quoted
  return { s.add (.scalar true text) with keyAllowed := false, cursor }

/-- Text without quotes. -/
def plain (s : Scan) : Except Misreading Scan := do
  let s ← s.rememberKey
  let read ← s.cursor.plain s.inFlow s.least
  return { s.add (.scalar false read.text) with keyAllowed := read.onNewLine, cursor := read.after }

/-- Reads the lexeme that begins with a character, where the scan is. -/
def lexeme (s : Scan) (c : Char) (rest : List Char) : Except Misreading Scan :=
  let atStart := s.cursor.place.column == 0
  let isAlone := blankFollows rest
  if atStart && c == '%' then s.directive
  else if s.cursor.atMark then s.documentMark (if c == '-' then .documentStart else .documentEnd)
  else if c == '[' then s.openFlow .openBracket
  else if c == '\x7b' then s.openFlow .openBrace
  else if c == ']' then s.closeFlow .closeBracket
  else if c == '\x7d' then s.closeFlow .closeBrace
  else if c == ',' then s.comma
  else if c == '-' && isAlone then s.dash
  else if c == '?' && (s.inFlow || isAlone) then s.question
  else if c == ':' && (s.inFlow || isAlone) then s.colon
  else if c == '*' then s.name .mention
  else if c == '&' then s.name .anchor
  else if c == '!' then s.tag
  else if c == '|' && !s.inFlow then s.block true
  else if c == '>' && !s.inFlow then s.block false
  else if c == singleQuote || c == '"' then s.quoted
  else if ['|', '>', '%', '@', '\x60', '\t'].contains c then s.cursor.fail .cannotStart
  else s.plain

/-- Reads the next lexeme, with the ends of the blocks before it. -/
def step (s : Scan) : Except Misreading Scan := do
  let s ← s.toNext.forgetLostKeys
  let s := s.outdent (s.cursor.place.column + 1)
  let s ← match s.cursor.rest with
    | [] => s.fileEnd
    | c :: rest => s.lexeme c rest
  s.forgetLostKeys

/-- How many lexemes are known to stay as they are. -/
def settled (s : Scan) : Nat :=
  (s.key :: s.outerKeys).foldl
    (fun least key => (key.map fun k => min k.number least).getD least) s.lexemes.size

/-- Reads lexemes to the end of the file. -/
def run : (fuel : Nat) → Scan → Lexemes
  | 0, s => ⟨s.lexemes.toList, none⟩
  | fuel + 1, s =>
      if s.finished then ⟨s.lexemes.toList, none⟩
      else match s.step with
        | .ok next => run fuel next
        | .error m => ⟨s.lexemes.toList.take s.settled, some m⟩

end Scan

/-- The lexemes of a file. -/
def Lexemes.ofChars (cs : List Char) : Lexemes := (Scan.start cs).run (cs.length + 2)

end Offside.Settings
