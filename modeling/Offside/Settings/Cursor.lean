import Offside.Settings.Character
import Offside.Settings.Misreading
import Offside.Settings.Tag

/-!
# Reading scalars

The characters of a settings file are read from front to back by a cursor that knows its place. A
scalar may go on over several lines: a single line feed in it stands for a blank, and each further
line break for itself.
-/

set_option autoImplicit false

namespace Offside.Settings

/-- A place in a file. -/
structure Place where
  /-- The number of characters before the place. -/
  index : Nat
  /-- The number of lines before its line. -/
  line : Nat
  /-- The number of characters before it on its line. -/
  column : Nat
  deriving DecidableEq, Repr, Inhabited

namespace Place

/-- The place some characters further on the same line. -/
def right (p : Place) (count : Nat) : Place :=
  { p with index := p.index + count, column := p.column + count }

/-- The place behind a line break. -/
def down (p : Place) : Place := ⟨p.index + 1, p.line + 1, 0⟩

end Place

/-- The characters still to be read, with their place. -/
structure Cursor where
  /-- The characters still to be read. -/
  rest : List Char
  /-- The place of the first of them. -/
  place : Place
  deriving DecidableEq, Repr, Inhabited

/-- A gap between the words of a scalar, its characters backwards. -/
inductive Gap where
  /-- Blanks on a line. -/
  | blanks (row : List Char)
  /-- Line breaks, the first of them apart; an escaped one is left out. -/
  | breaks (first : Option Char) (more : List Char)
  deriving DecidableEq, Repr, Inhabited

namespace Gap

/-- No gap. -/
def empty : Gap := blanks []

/-- Whether there is no gap. -/
def isEmpty : Gap → Bool
  | blanks row => row.isEmpty
  | breaks .. => false

/-- Whether a gap goes over the end of a line. -/
def hasBreak : Gap → Bool
  | blanks _ => false
  | breaks .. => true

/-- A gap with one more blank. -/
def addBlank (c : Char) : Gap → Gap
  | blanks row => blanks (c :: row)
  | gap => gap

/-- A gap with one more line break. -/
def addBreak (c : Char) : Gap → Gap
  | blanks _ => breaks (some c) []
  | breaks first more => breaks first (c :: more)

/-- The text so far, backwards, with what a gap behind it stands for. -/
def onto (done : List Char) : Gap → List Char
  | blanks row => row ++ done
  | breaks (some '\n') [] => ' ' :: done
  | breaks (some '\n') more => more ++ done
  | breaks first more => more ++ first.toList ++ done

end Gap

/-- Whether a character separates the parts of what stands in brackets or braces. -/
def isFlowMark (c : Char) : Bool := [',', '[', ']', '\x7b', '\x7d', '?'].contains c

namespace Cursor

/-- Passes over characters that are on one line. -/
def skip (c : Cursor) (count : Nat) : Cursor := ⟨c.rest.drop count, c.place.right count⟩

/-- Passes over the characters on the line that fulfil a condition. -/
def skipWhile (c : Cursor) (p : Char → Bool) : Cursor := c.skip (c.rest.takeWhile p).length

/-- Passes over the rest of the line. -/
def skipLine (c : Cursor) : Cursor := c.skipWhile fun d => !isBreak d

/-- A failure at the cursor. -/
def fail {α : Type} (c : Cursor) (cause : Cause) : Except Misreading α :=
  .error ⟨cause, c.place.line⟩

/-- Whether the cursor stands at a document mark. -/
def atMark (c : Cursor) : Bool := c.place.column == 0 && startsWithMark c.rest

/-- Text without quotes, with the cursor behind it and the gap passed over. -/
structure PlainText where
  /-- The text. -/
  text : String
  /-- The cursor behind it. -/
  after : Cursor
  /-- Whether the next thing is on a line of its own. -/
  onNewLine : Bool
  deriving DecidableEq, Repr, Inhabited

/-- Reads text without quotes. Its further lines are those indented to the column `least` at least,
or all of them if `inFlow`. `done` is the text so far, backwards, and `gap` is what stands behind
it. -/
def plainLoop (inFlow : Bool) (least : Nat) (done : List Char) (gap : Gap) :
    List Char → Place → Except Misreading PlainText
  | [], p => .ok ⟨.ofList done.reverse, ⟨[], p⟩, gap.hasBreak⟩
  | c :: rest, p =>
      if isBreak c then plainLoop inFlow least done (gap.addBreak c) rest p.down
      else if isBlank c then
        if gap.hasBreak && p.column < least && c == '\t' then .error ⟨.tabInIndentation, p.line⟩
        else plainLoop inFlow least done (gap.addBlank c) rest (p.right 1)
      else if (!gap.isEmpty && (c == '#' || (!inFlow && p.column < least) ||
            (p.column == 0 && startsWithMark (c :: rest)))) ||
          (c == ':' && blankFollows rest) || (inFlow && isFlowMark c) then
        .ok ⟨.ofList done.reverse, ⟨c :: rest, p⟩, gap.hasBreak⟩
      else plainLoop inFlow least (c :: gap.onto done) .empty rest (p.right 1)

/-- Reads text without quotes. -/
def plain (c : Cursor) (inFlow : Bool) (least : Nat) : Except Misreading PlainText :=
  plainLoop inFlow least [] .empty c.rest c.place

/-- Reads text in single quotes, from after the opening one. -/
def singleLoop (done : List Char) (gap : Gap) :
    List Char → Place → Except Misreading (String × Cursor)
  | [], p => .error ⟨.unclosedQuote, p.line⟩
  | c :: rest, p =>
      if p.column == 0 && startsWithMark (c :: rest) then .error ⟨.markInQuotes, p.line⟩
      else if isBreak c then singleLoop done (gap.addBreak c) rest p.down
      else if isBlank c then singleLoop done (gap.addBlank c) rest (p.right 1)
      else
        let done := gap.onto done
        if c == singleQuote then
          match rest with
          | d :: more =>
              if d == singleQuote then singleLoop (c :: done) .empty more (p.right 2)
              else .ok (.ofList done.reverse, ⟨rest, p.right 1⟩)
          | [] => .ok (.ofList done.reverse, ⟨rest, p.right 1⟩)
        else singleLoop (c :: done) .empty rest (p.right 1)

/-- The number of hexadecimal digits after the letter of an escape. -/
def hexWidth? : Char → Option Nat
  | 'x' => some 2
  | 'u' => some 4
  | 'U' => some 8
  | _ => none

/-- The character of a short escape. -/
def shortEscape? (letter : Char) : Option Char :=
  if letter == ' ' || letter == '\t' || letter == singleQuote then some letter
  else (shortEscapes.find? fun e => e.2 == letter).map fun e => Char.ofNat e.1

/-- The character that hexadecimal digits stand for. -/
def hexEscape (digits : List Char) (width : Nat) : Except Cause Char :=
  if digits.length == width && Tag.isBaseWhole 16 digits then
    let n := Tag.ofBaseDigits 16 digits
    if n.isValidChar then .ok (Char.ofNat n) else .error .escapedNoCharacter
  else .error .missingHexDigits

/-- Reads text in double quotes, from after the opening one. An escaped line break stands for
nothing. -/
def doubleLoop (done : List Char) (gap : Gap) (cs : List Char) (p : Place) :
    Except Misreading (String × Cursor) :=
  match cs with
  | [] => .error ⟨.unclosedQuote, p.line⟩
  | c :: rest =>
      if p.column == 0 && startsWithMark (c :: rest) then .error ⟨.markInQuotes, p.line⟩
      else if isBreak c then doubleLoop done (gap.addBreak c) rest p.down
      else if isBlank c then doubleLoop done (gap.addBlank c) rest (p.right 1)
      else
        let done := gap.onto done
        if c == '"' then .ok (.ofList done.reverse, ⟨rest, p.right 1⟩)
        else if c == '\\' then
          match rest with
          | [] => .error ⟨.unknownEscape, p.line⟩
          | letter :: more =>
              if isBreak letter then doubleLoop done (.breaks none []) more (p.right 1).down
              else match hexWidth? letter with
                | some width =>
                    match hexEscape (more.take width) width with
                    | .ok d => doubleLoop (d :: done) .empty (more.drop width) (p.right (2 + width))
                    | .error cause => .error ⟨cause, p.line⟩
                | none =>
                    match shortEscape? letter with
                    | some d => doubleLoop (d :: done) .empty more (p.right 2)
                    | none => .error ⟨.unknownEscape, p.line⟩
        else doubleLoop (c :: done) .empty rest (p.right 1)
termination_by cs.length

/-- Reads quoted text from its opening quote on. -/
def quoted (c : Cursor) : Except Misreading (String × Cursor) :=
  match c.rest with
  | '"' :: rest => doubleLoop [] .empty rest (c.place.right 1)
  | _ => singleLoop [] .empty (c.rest.drop 1) (c.place.right 1)

/-- What becomes of the line breaks at the end of a text below its key. -/
inductive Chomping where
  /-- None is kept. -/
  | strip
  /-- The first is kept. -/
  | clip
  /-- All are kept. -/
  | keep
  deriving DecidableEq, Repr, Inhabited

/-- What a character says about the line breaks at the end. -/
def chomping? : Char → Option Chomping
  | '+' => some .keep
  | '-' => some .strip
  | _ => none

/-- Takes a character off the front that says what becomes of the line breaks at the end. -/
def readChomping? (c : Cursor) : Option (Chomping × Cursor) := do
  return (← chomping? (← c.rest.head?), c.skip 1)

/-- Takes a digit off the front that says by how much the lines are indented. -/
def readIncrement (c : Cursor) : Except Misreading (Option Nat × Cursor) :=
  match c.rest with
  | d :: _ =>
      if d == '0' then c.fail .indentedByNothing
      else if d.isDigit then .ok (some (d.toNat - 0x30), c.skip 1)
      else .ok (none, c)
  | [] => .ok (none, c)

/-- Reads what says how a text below its key is to be read, in either order. -/
def readHeader (c : Cursor) : Except Misreading (Chomping × Option Nat × Cursor) := do
  match c.readChomping? with
  | some (chomping, c) =>
      let (increment, c) ← c.readIncrement
      return (chomping, increment, c)
  | none =>
      let (increment, c) ← c.readIncrement
      match increment, c.readChomping? with
      | some _, some (chomping, c) => return (chomping, increment, c)
      | _, _ => return (.clip, increment, c)

/-- Passes over the rest of a line on which only a comment may stand. -/
def endLine (c : Cursor) : Except Misreading Cursor :=
  let c := c.skipWhile isBlank
  let c := if c.rest.head? == some '#' then c.skipLine else c
  match c.rest with
  | [] => .ok c
  | d :: rest => if isBreak d then .ok ⟨rest, c.place.down⟩ else c.fail .unendedLine

/-- What stands before a line of a text below its key. -/
structure Indentation where
  /-- The line breaks of empty lines, backwards. -/
  breaks : List Char
  /-- The greatest number of blanks on a line. -/
  widest : Nat
  /-- The cursor behind it. -/
  after : Cursor
  deriving DecidableEq, Repr, Inhabited

/-- Passes over empty lines and the blanks before a line, up to the indentation if it is known. -/
def indentationLoop (indent : Option Nat) (breaks : List Char) (widest : Nat) :
    List Char → Place → Except Misreading Indentation
  | [], p => .ok ⟨breaks, max widest p.column, ⟨[], p⟩⟩
  | c :: rest, p =>
      let before := indent.all (p.column < ·)
      if before && c == ' ' then indentationLoop indent breaks widest rest (p.right 1)
      else if before && c == '\t' then .error ⟨.tabInLiteral, p.line⟩
      else if isBreak c then
        indentationLoop indent (c :: breaks) (max widest p.column) rest p.down
      else .ok ⟨breaks, max widest p.column, ⟨c :: rest, p⟩⟩

/-- Passes over empty lines and the blanks before a line. -/
def indentation (c : Cursor) (indent : Option Nat) : Except Misreading Indentation :=
  indentationLoop indent [] 0 c.rest c.place

/-- A text below its key as it is read: the text so far, the line break behind it and those of the
empty lines after that one, all backwards. -/
structure BlockText where
  /-- The text so far. -/
  done : List Char
  /-- The line break behind it. -/
  last : List Char
  /-- The line breaks of the empty lines after that. -/
  more : List Char
  /-- Whether its last line starts with a blank. -/
  indented : Bool
  deriving DecidableEq, Repr, Inhabited

namespace BlockText

/-- The text with its line breaks in front of a line that starts with a blank if `indented`. Unless
every line break counts, a single line feed between lines that start with none stands for a
blank. -/
def joined (literal : Bool) (b : BlockText) (indented : Bool) : List Char :=
  if !literal && !b.indented && !indented && b.last == ['\n'] then
    (if b.more.isEmpty then [' '] else b.more) ++ b.done
  else b.more ++ b.last ++ b.done

/-- The text with the line breaks at its end that are kept. -/
def chomped (b : BlockText) : Chomping → String
  | .strip => .ofList b.done.reverse
  | .clip => .ofList (b.last ++ b.done).reverse
  | .keep => .ofList (b.more ++ b.last ++ b.done).reverse

end BlockText

/-- Reads the lines of a text below its key. -/
def blockLines (literal : Bool) (indent : Nat) :
    (fuel : Nat) → BlockText → Cursor → Except Misreading (BlockText × Cursor)
  | 0, b, c => .ok (b, c)
  | fuel + 1, b, c =>
      if c.place.column != indent || c.rest.isEmpty then .ok (b, c)
      else do
        let indented := c.rest.head?.any isBlank
        let line := c.rest.takeWhile fun d => !isBreak d
        let done := line.reverse ++ b.joined literal indented
        let c := c.skipLine
        let (last, c) : List Char × Cursor := match c.rest with
          | [] => ([], c)
          | d :: rest => ([d], ⟨rest, c.place.down⟩)
        let gap ← c.indentation (some indent)
        blockLines literal indent fuel ⟨done, last, gap.breaks, indented⟩ gap.after

/-- Reads a text below its key, from the mark that announces it on; what belongs to the key is
indented to the column `least` at least. -/
def block (c : Cursor) (literal : Bool) (least : Nat) : Except Misreading (String × Cursor) := do
  let (chomping, increment, c) ← (c.skip 1).readHeader
  let c ← c.endLine
  let announced := increment.map fun n => least - 1 + n
  let gap ← c.indentation announced
  let indent := announced.getD (max gap.widest (max least 1))
  let (text, c) ←
    blockLines literal indent (gap.after.rest.length + 1) ⟨[], [], gap.breaks, false⟩ gap.after
  return (text.chomped chomping, c)

/-- Reads a name, from the mark before it on. -/
def name (c : Cursor) : Except Misreading (String × Cursor) :=
  let c := c.skip 1
  let cs := c.rest.takeWhile isNameCharacter
  let after := c.skip cs.length
  if !cs.isEmpty && (blankFollows after.rest || after.rest.head?.any fun d =>
      ['?', ':', ',', ']', '\x7d', '%', '@', '\x60'].contains d) then
    .ok (.ofList cs, after)
  else after.fail .missingName

/-- Whether a character may stand in the text of a tag. -/
def isTagCharacter (c : Char) : Bool :=
  isNameCharacter c || [';', '/', '?', ':', '@', '&', '=', '+', '$', ',', '.', '!', '~', '*',
    singleQuote, '(', ')', '[', ']'].contains c

/-- Checks that a tag ends at the cursor. -/
def endTag (c : Cursor) (shorthand text : String) : Except Misreading (String × String × Cursor) :=
  if blankFollows c.rest then .ok (shorthand, text, c) else c.fail .unendedTag

/-- Reads a tag: the shorthand it begins with and its text. -/
def tag (c : Cursor) : Except Misreading (String × String × Cursor) :=
  match c.rest with
  | _ :: '<' :: _ =>
      let c := c.skip 2
      let text := c.rest.takeWhile isTagCharacter
      let after := c.skip text.length
      if text.isEmpty then after.fail .missingTagText
      else if after.rest.head? != some '>' then after.fail .unclosedTag
      else (after.skip 1).endTag "" (.ofList text)
  | _ =>
      let name := (c.rest.drop 1).takeWhile isNameCharacter
      let c := c.skip (1 + name.length)
      match c.rest with
      | '!' :: _ =>
          let c := c.skip 1
          let text := c.rest.takeWhile isTagCharacter
          let after := c.skip text.length
          if text.isEmpty then after.fail .missingTagText
          else after.endTag (.ofList ('!' :: name ++ ['!'])) (.ofList text)
      | _ =>
          let text := name ++ c.rest.takeWhile isTagCharacter
          let after := c.skip (text.length - name.length)
          if text.isEmpty then after.endTag "" "!" else after.endTag "!" (.ofList text)

/-- Passes over a directive. -/
def directive (c : Cursor) : Except Misreading Cursor :=
  let c := c.skip 1
  let name := c.rest.takeWhile isNameCharacter
  let after := c.skip name.length
  if name.isEmpty then after.fail .missingDirective
  else if !blankFollows after.rest then after.fail .unendedDirective
  else if String.ofList name ∈ ["YAML", "TAG"] then .ok after.skipLine
  else after.fail .unknownDirective

end Cursor

end Offside.Settings
