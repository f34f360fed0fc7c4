/-!
# What can be wrong with a settings file

A settings file that cannot be read has a first place where reading it fails. The line that is
reported for it depends on the cause: a wrong character or scalar is reported by the number of its
line, and a scalar in a wrong place by the number of lines before it. The first line is not
mentioned.
-/

set_option autoImplicit false

namespace Offside.Settings

/-- Why a settings file cannot be read. -/
inductive Cause where
  /-- A byte cannot start the encoding of a character. -/
  | badLead
  /-- A byte cannot go on with the encoding of a character. -/
  | badTrail
  /-- The encoding of a character is cut off. -/
  | cutOff
  /-- A character is encoded by too many bytes. -/
  | overlong
  /-- The encoded number is that of no character. -/
  | noCharacter
  /-- A control character stands in the file. -/
  | controlCharacter
  /-- A quote is not closed. -/
  | unclosedQuote
  /-- A document mark stands in quotes. -/
  | markInQuotes
  /-- A backslash stands before a character that makes no escape. -/
  | unknownEscape
  /-- An escape lacks hexadecimal digits. -/
  | missingHexDigits
  /-- An escape has the number of no character. -/
  | escapedNoCharacter
  /-- A tab stands where a line is indented. -/
  | tabInIndentation
  /-- A tab stands where a line below its key is indented. -/
  | tabInLiteral
  /-- Lines below their key are said to be indented by nothing. -/
  | indentedByNothing
  /-- Something stands on a line that should end. -/
  | unendedLine
  /-- A name lacks its characters, or is followed by what cannot follow it. -/
  | missingName
  /-- A tag lacks its text. -/
  | missingTagText
  /-- A tag between angles is not closed. -/
  | unclosedTag
  /-- A tag is followed by something other than a blank. -/
  | unendedTag
  /-- A tag begins with a shorthand that stands for nothing. -/
  | unknownShorthand
  /-- A directive has no name. -/
  | missingDirective
  /-- The name of a directive goes on with a wrong character. -/
  | unendedDirective
  /-- A directive is not known. -/
  | unknownDirective
  /-- No document starts after the directives. -/
  | missingDocument
  /-- A character begins nothing. -/
  | cannotStart
  /-- A colon stands where no key can be. -/
  | strayColon
  /-- A question mark stands where no key can be. -/
  | strayKey
  /-- A dash stands where no sequence can be. -/
  | strayDash
  /-- A key has no colon. -/
  | missingColon
  /-- Something other than a key stands where a key should be. -/
  | missingKey
  /-- Something other than a dash stands where a dash should be. -/
  | missingDash
  /-- Nothing stands where an item should be. -/
  | missingItem
  /-- A bracketed sequence neither goes on nor ends. -/
  | openSequence
  /-- A braced mapping neither goes on nor ends. -/
  | openMapping
  /-- A name is mentioned that was given to nothing. -/
  | unknownAnchor (name : String)
  deriving DecidableEq, Repr, Inhabited

/-- The place where a file cannot be read: the cause, and the number of lines before it. -/
structure Misreading where
  /-- The cause. -/
  cause : Cause
  /-- The number of lines before the place. -/
  line : Nat
  deriving DecidableEq, Repr, Inhabited

namespace Cause

/-- How a cause is put into words. -/
def text : Cause → String
  | badLead => "invalid leading UTF-8 octet"
  | badTrail => "invalid trailing UTF-8 octet"
  | cutOff => "incomplete UTF-8 octet sequence"
  | overlong => "invalid length of a UTF-8 sequence"
  | noCharacter => "invalid Unicode character"
  | controlCharacter => "control characters are not allowed"
  | unclosedQuote => "found unexpected end of stream"
  | markInQuotes => "found unexpected document indicator"
  | unknownEscape => "found unknown escape character"
  | missingHexDigits => "did not find expected hexdecimal number"
  | escapedNoCharacter => "found invalid Unicode character escape code"
  | tabInIndentation => "found a tab character that violates indentation"
  | tabInLiteral => "found a tab character where an indentation space is expected"
  | indentedByNothing => "found an indentation indicator equal to 0"
  | unendedLine => "did not find expected comment or line break"
  | missingName => "did not find expected alphabetic or numeric character"
  | missingTagText => "did not find expected tag URI"
  | unclosedTag => "did not find the expected '>'"
  | unendedTag => "did not find expected whitespace or line break"
  | unknownShorthand => "found undefined tag handle"
  | missingDirective => "could not find expected directive name"
  | unendedDirective => "found unexpected non-alphabetical character"
  | unknownDirective => "found unknown directive name"
  | missingDocument => "did not find expected <document start>"
  | cannotStart => "found character that cannot start any token"
  | strayColon => "mapping values are not allowed in this context"
  | strayKey => "mapping keys are not allowed in this context"
  | strayDash => "block sequence entries are not allowed in this context"
  | missingColon => "could not find expected ':'"
  | missingKey => "did not find expected key"
  | missingDash => "did not find expected '-' indicator"
  | missingItem => "did not find expected node content"
  | openSequence => "did not find expected ',' or ']'"
  | openMapping => "did not find expected ',' or '\x7d'"
  | unknownAnchor name => "unknown anchor '" ++ name ++ "' referenced"

/-- The line that is reported for a cause with the given number of lines before it. -/
def reportedLine? (cause : Cause) (line : Nat) : Option Nat :=
  match cause with
  | badLead | badTrail | cutOff | overlong | noCharacter | controlCharacter | unknownAnchor _ =>
      none
  | missingKey | missingDash | missingItem | openSequence | openMapping | unknownShorthand
  | missingDocument =>
      if line = 0 then none else some line
  | _ => if line = 0 then none else some (line + 1)

end Cause

namespace Misreading

/-- The message of a misreading. -/
def message (m : Misreading) : String :=
  match m.cause.reportedLine? m.line with
  | some n => "yaml: line " ++ toString n ++ ": " ++ m.cause.text
  | none => "yaml: " ++ m.cause.text

end Misreading

end Offside.Settings
