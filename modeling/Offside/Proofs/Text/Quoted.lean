import Offside.Proofs.Text.Utf8
import Offside.Text.Quoted
import Mathlib.Tactic.Common

/-!
# Quoted text can be read back

How a character is written between quotes tells the character and where it ends, whatever follows
(`readEscape_escapeChar`), and no character is written as a bare quote. So the quote that closes a
quoted text is found, and the text is determined.
-/

set_option autoImplicit false

namespace Offside.Quoted

/-- The number that a hexadecimal digit stands for. -/
def hexValue (c : Char) : Nat := if c.toNat < 0x3A then c.toNat - 0x30 else c.toNat - 0x57

/-- The number that hexadecimal digits spell. -/
def hexNumber (ds : List Char) : Nat := ds.foldl (fun n c => 16 * n + hexValue c) 0

/-- The character that a letter after a backslash stands for. -/
def ofShortEscape (letter : Char) : Char :=
  match letter with
  | 'a' => Char.ofNat 0x07
  | 'b' => Char.ofNat 0x08
  | 't' => Char.ofNat 0x09
  | 'n' => Char.ofNat 0x0A
  | 'v' => Char.ofNat 0x0B
  | 'f' => Char.ofNat 0x0C
  | 'r' => Char.ofNat 0x0D
  | c => c

/-- The first character of the inside of a quoted text, and what follows it. -/
def readEscape : List Char → Char × List Char
  | '\\' :: 'x' :: k => (Char.ofNat (hexNumber (k.take 2)), k.drop 2)
  | '\\' :: 'u' :: k => (Char.ofNat (hexNumber (k.take 4)), k.drop 4)
  | '\\' :: 'U' :: k => (Char.ofNat (hexNumber (k.take 8)), k.drop 8)
  | '\\' :: letter :: k => (ofShortEscape letter, k)
  | c :: k => (c, k)
  | [] => default

/-- A number is written with as many hexadecimal digits as asked for. -/
theorem length_hexDigits (count n : Nat) : (hexDigits count n).length = count := by
  induction count generalizing n with
  | zero => rfl
  | succ count ih => simp [hexDigits, ih]

/-- The value of a hexadecimal digit is the number it was made from. -/
theorem hexValue_hexDigit {n : Nat} (h : n < 16) : hexValue (hexDigit n) = n := by
  have hall : ∀ k ∈ List.range 16, hexValue (hexDigit k) = k := by decide
  exact hall n (List.mem_range.mpr h)

/-- Hexadecimal digits are read back as the number, if it fits. -/
theorem hexNumber_hexDigits {count n : Nat} (h : n < Nat.pow 16 count) :
    hexNumber (hexDigits count n) = n := by
  induction count generalizing n with
  | zero =>
    have hzero : n = 0 := Nat.lt_one_iff.mp h
    rw [hzero]
    rfl
  | succ count ih =>
    have hless : n / 16 < Nat.pow 16 count := Nat.div_lt_of_lt_mul (by rwa [Nat.mul_comm])
    have hfront := ih hless
    unfold hexNumber at hfront ⊢
    rw [hexDigits, List.foldl_append, hfront, List.foldl_cons, List.foldl_nil,
      hexValue_hexDigit (Nat.mod_lt n (by decide)), Nat.div_add_mod]

/-- A code of hexadecimal digits is read with them. -/
theorem ofNat_hexNumber {c : Char} {count : Nat} (h : c.toNat < Nat.pow 16 count) (k : List Char) :
    (Char.ofNat (hexNumber ((hexDigits count c.toNat ++ k).take count)),
      (hexDigits count c.toNat ++ k).drop count) = (c, k) := by
  rw [List.take_left' (length_hexDigits count _), List.drop_left' (length_hexDigits count _),
    hexNumber_hexDigits h, Char.ofNat_toNat]

/-- A short escape is read back as the character it was written for. -/
theorem readEscape_shortEscape {c letter : Char} (h : shortEscape? c = some letter)
    (k : List Char) : readEscape ('\\' :: letter :: k) = (c, k) := by
  have hc := Char.ofNat_toNat c
  unfold shortEscape? at h
  split at h <;> first
    | (rename_i hcode
       rw [hcode] at hc
       rw [← hc, ← Option.some.inj h]
       rfl)
    | simp at h

/-- What is written for a character is read back, whatever follows. -/
theorem readEscape_escapeChar (c : Char) (k : List Char) :
    readEscape (escapeChar '"' c ++ k) = (c, k) := by
  unfold escapeChar
  split
  · rename_i hmark
    rcases hmark with rfl | rfl <;> rfl
  · rename_i hmark
    rw [not_or] at hmark
    split
    · simp [readEscape, hmark.2]
    · cases hshort : shortEscape? c with
      | some letter => exact readEscape_shortEscape hshort k
      | none =>
        have hcode : c.toNat < Nat.pow 16 8 := Nat.lt_of_lt_of_le c.val.toNat_lt (by decide)
        dsimp only
        split
        · exact ofNat_hexNumber (Nat.lt_trans ‹_› (by decide)) k
        · split
          · exact ofNat_hexNumber ‹_› k
          · exact ofNat_hexNumber hcode k

/-- A character is never written as a bare quote. -/
theorem exists_cons_of_escapeChar (c : Char) : ∃ d ds, escapeChar '"' c = d :: ds ∧ d ≠ '"' := by
  unfold escapeChar
  split
  · exact ⟨_, _, rfl, by decide⟩
  · rename_i hmark
    rw [not_or] at hmark
    split
    · exact ⟨_, _, rfl, hmark.1⟩
    · repeat' split
      all_goals exact ⟨_, _, rfl, by decide⟩

/-- The inside of a quoted text ends at the first quote that belongs to no escape. -/
theorem body_inj {cs cs' : List Char} {k k' : List Char}
    (h : cs.flatMap (escapeChar '"') ++ '"' :: k = cs'.flatMap (escapeChar '"') ++ '"' :: k') :
    cs = cs' ∧ k = k' := by
  induction cs generalizing cs' with
  | nil =>
    cases cs' with
    | nil => simpa using h
    | cons c' cs' =>
      obtain ⟨d, ds, hd, hquote⟩ := exists_cons_of_escapeChar c'
      rw [List.flatMap_nil, List.nil_append, List.flatMap_cons, hd, List.cons_append,
        List.cons_append, List.cons.injEq] at h
      exact absurd h.1.symm hquote
  | cons c cs ih =>
    cases cs' with
    | nil =>
      obtain ⟨d, ds, hd, hquote⟩ := exists_cons_of_escapeChar c
      rw [List.flatMap_nil, List.nil_append, List.flatMap_cons, hd, List.cons_append,
        List.cons_append, List.cons.injEq] at h
      exact absurd h.1 hquote
    | cons c' cs' =>
      have hread := congrArg readEscape h
      rw [List.flatMap_cons, List.flatMap_cons, List.append_assoc, List.append_assoc,
        readEscape_escapeChar, readEscape_escapeChar, Prod.mk.injEq] at hread
      obtain ⟨hcs, hk⟩ := ih hread.2
      exact ⟨by rw [hread.1, hcs], hk⟩

/-- A quoted string is its escaped characters between quotes. -/
theorem chars_ofString (s : String) (k : List Char) :
    chars (Text.ofString s) ++ k = '"' :: (s.toList.flatMap (escapeChar '"') ++ '"' :: k) := by
  have hrunes : (Text.ofString s).runes = s.toList.map Rune.char := Text.runes_ofChars s.toList
  unfold chars
  rw [hrunes, List.flatMap_map]
  simp [escape]

/-- A valid text and what follows it are determined by what is written for them. -/
theorem chars_inj {t t' : Text} (ht : t.toString?.isSome = true) (ht' : t'.toString?.isSome = true)
    {k k' : List Char} (h : chars t ++ k = chars t' ++ k') : t = t' ∧ k = k' := by
  obtain ⟨s, hs⟩ := Option.isSome_iff_exists.mp ht
  obtain ⟨s', hs'⟩ := Option.isSome_iff_exists.mp ht'
  rw [← Text.ofString_of_toString? hs, ← Text.ofString_of_toString? hs', chars_ofString,
    chars_ofString, List.cons.injEq] at h
  obtain ⟨hchars, hk⟩ := body_inj h.2
  have hstring : s = s' := String.toList_inj.mp hchars
  rw [← Text.ofString_of_toString? hs, ← Text.ofString_of_toString? hs', hstring]
  exact ⟨rfl, hk⟩

end Offside.Quoted
