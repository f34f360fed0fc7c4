import Offside.Settings.Misreading

/-!
# Lexemes of a settings file

A settings file is a row of lexemes. Some are written, and some follow from how the lines are
indented: where a sequence or a mapping begins, what is a key, and where a block ends.
-/

set_option autoImplicit false

namespace Offside.Settings

/-- What a lexeme is. -/
inductive LexemeKind where
  /-- The end of the file. -/
  | fileEnd
  /-- A line that is addressed to the reader of the file. -/
  | directive
  /-- The mark before a document. -/
  | documentStart
  /-- The mark after a document. -/
  | documentEnd
  /-- The beginning of a sequence with one item to a line. -/
  | sequenceStart
  /-- The beginning of a mapping with one key to a line. -/
  | mappingStart
  /-- The end of such a sequence or mapping. -/
  | blockEnd
  /-- An opening bracket. -/
  | openBracket
  /-- A closing bracket. -/
  | closeBracket
  /-- An opening brace. -/
  | openBrace
  /-- A closing brace. -/
  | closeBrace
  /-- The dash before an item. -/
  | dash
  /-- A comma. -/
  | comma
  /-- The beginning of a key. -/
  | key
  /-- The beginning of the value of a key. -/
  | value
  /-- A mention of an item by its name. -/
  | mention (name : String)
  /-- A name that is given to an item. -/
  | anchor (name : String)
  /-- A tag, with the shorthand it begins with. -/
  | tag (shorthand text : String)
  /-- A scalar. -/
  | scalar (quoted : Bool) (text : String)
  deriving DecidableEq, Repr, Inhabited

/-- A lexeme with the number of lines before it. -/
structure Lexeme where
  /-- What the lexeme is. -/
  kind : LexemeKind
  /-- The number of lines before it. -/
  line : Nat
  deriving DecidableEq, Repr, Inhabited

/-- The lexemes of a file as far as it can be read, and what hinders reading on. -/
structure Lexemes where
  /-- The lexemes. -/
  row : List Lexeme
  /-- What hinders reading on, if so. -/
  hindrance : Option Misreading
  deriving DecidableEq, Repr, Inhabited

end Offside.Settings
