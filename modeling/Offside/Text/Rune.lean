/-!
# Byte strings and the runes they spell

A text is a string of bytes, and it is read as a sequence of runes. A rune is either a character,
spelled by its UTF-8 unit, or a single stray byte that belongs to no unit. Nothing is lost by the
reading: the bytes of the runes, in order, are the text again.
-/

set_option autoImplicit false

namespace Offside

/-- A string of bytes, which need not be valid UTF-8. -/
abbrev Text := List UInt8

/-- One step of reading a text: a character, or a byte that no UTF-8 unit explains. -/
inductive Rune where
  /-- A character that was spelled by its UTF-8 unit. -/
  | char (c : Char)
  /-- A byte that belongs to no UTF-8 unit. -/
  | stray (b : UInt8)
  deriving DecidableEq, Repr, Inhabited

namespace Rune

/-- The character that stands in for a stray byte. -/
def replacement : Char := Char.ofNat 0xFFFD

/-- The character a rune is read as. -/
def toChar : Rune → Char
  | char c => c
  | stray _ => replacement

/-- The character of a rune, or nothing for a stray byte. -/
def char? : Rune → Option Char
  | char c => some c
  | stray _ => none

/-- The bytes a rune was read from. -/
def bytes : Rune → List UInt8
  | char c => String.utf8EncodeChar c
  | stray b => [b]

/-- The number of bytes a rune was read from. -/
def width (r : Rune) : Nat := r.bytes.length

/-- The length of the UTF-8 unit that a lead byte announces. -/
def announced (lead : UInt8) : Nat :=
  if lead < 0x80 then 1
  else if lead < 0xE0 then 2
  else if lead < 0xF0 then 3
  else 4

/-- The code point that a run of bytes would spell as one UTF-8 unit. -/
def codePoint : List UInt8 → Nat
  | [a] => a.toNat
  | [a, b] => a.toNat % 32 * 64 + b.toNat % 64
  | [a, b, c] => a.toNat % 16 * 4096 + b.toNat % 64 * 64 + c.toNat % 64
  | [a, b, c, d] =>
      a.toNat % 8 * 262144 + b.toNat % 64 * 4096 + c.toNat % 64 * 64 + d.toNat % 64
  | _ => 0

/-- The first rune of a text that starts with the byte `lead`. A unit counts only if it is the one
spelling of its character, so overlong forms, surrogates and cut-off units leave a stray byte. -/
def first (lead : UInt8) (rest : Text) : Rune :=
  let unit := (lead :: rest).take (announced lead)
  let c := Char.ofNat (codePoint unit)
  if String.utf8EncodeChar c = unit then char c else stray lead

end Rune

namespace Text

/-- The runes of a text once `skip` bytes of it are passed over. -/
def runesAfter : (skip : Nat) → Text → List Rune
  | _, [] => []
  | skip + 1, _ :: rest => runesAfter skip rest
  | 0, b :: rest =>
      let r := Rune.first b rest
      r :: runesAfter (r.width - 1) rest

/-- The runes that a text spells. -/
def runes (t : Text) : List Rune := runesAfter 0 t

/-- The characters a text is read as, with the replacement character for each stray byte. -/
def chars (t : Text) : List Char := t.runes.map Rune.toChar

/-- The text that spells the given characters. -/
def ofChars (cs : List Char) : Text := cs.flatMap String.utf8EncodeChar

/-- The text that spells a string. -/
def ofString (s : String) : Text := ofChars s.toList

/-- The string a text spells, or nothing if some byte of it is stray. -/
def toString? (t : Text) : Option String := (t.runes.mapM Rune.char?).map String.ofList

/-- The string a text is read as, with the replacement character for each stray byte. -/
def toStringLossy (t : Text) : String := String.ofList t.chars

end Text

end Offside
