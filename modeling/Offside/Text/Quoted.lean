import Offside.Text.Printable
import Offside.Text.Rune

/-!
# Quoted text

Quoted text stands between two marks. Inside, the mark and the backslash are escaped, printable
characters stand for themselves, and everything else is written by a short escape or by its code
in hexadecimal: a stray byte or an ASCII control with two digits, other characters with four or
eight.
-/

set_option autoImplicit false

namespace Offside.Quoted

/-- The lower-case hexadecimal digit of a number below sixteen. -/
def hexDigit (n : Nat) : Char :=
  if n < 10 then Char.ofNat (0x30 + n) else Char.ofNat (0x57 + n)

/-- The last `count` hexadecimal digits of a number, leading zeros included. -/
def hexDigits : (count : Nat) → Nat → List Char
  | 0, _ => []
  | count + 1, n => hexDigits count (n / 16) ++ [hexDigit (n % 16)]

/-- The letter of a control character's short escape. -/
def shortEscape? (c : Char) : Option Char :=
  match c.toNat with
  | 0x07 => some 'a'
  | 0x08 => some 'b'
  | 0x09 => some 't'
  | 0x0A => some 'n'
  | 0x0B => some 'v'
  | 0x0C => some 'f'
  | 0x0D => some 'r'
  | _ => none

/-- How a character is written between two marks. -/
def escapeChar (mark c : Char) : List Char :=
  if c = mark ∨ c = '\\' then ['\\', c]
  else if Text.isPrintable c then [c]
  else match shortEscape? c with
    | some letter => ['\\', letter]
    | none =>
        if c.toNat < 0x80 then '\\' :: 'x' :: hexDigits 2 c.toNat
        else if c.toNat < 0x10000 then '\\' :: 'u' :: hexDigits 4 c.toNat
        else '\\' :: 'U' :: hexDigits 8 c.toNat

/-- How a rune is written between two marks. -/
def escape (mark : Char) : Rune → List Char
  | .char c => escapeChar mark c
  | .stray b => '\\' :: 'x' :: hexDigits 2 b.toNat

/-- The characters of a text in double quotes. -/
def chars (t : Text) : List Char := '"' :: t.runes.flatMap (escape '"') ++ ['"']

/-- A text in double quotes. -/
def text (t : Text) : String := String.ofList (chars t)

/-- A string in double quotes. -/
def string (s : String) : String :=
  String.ofList ('"' :: s.toList.flatMap (escapeChar '"') ++ ['"'])

/-- The character with the given code, or the replacement character if there is none. -/
def charOfCode (code : Int) : Char :=
  if 0 ≤ code ∧ code.toNat.isValidChar then Char.ofNat code.toNat else Rune.replacement

/-- The mark around a single character. -/
def charMark : Char := Char.ofNat 0x27

/-- The character with the given code in single quotes. -/
def code (code : Int) : String :=
  String.ofList (charMark :: escapeChar charMark (charOfCode code) ++ [charMark])

end Offside.Quoted
