import Offside.Text.Rune
import Mathlib.Tactic.Common

/-!
# Spelled characters are read back

The runes of a text that spells characters are these characters, so a text that spells a string is
valid and gives the string back.
-/

set_option autoImplicit false

namespace Offside

namespace Rune

/-- The lead byte of a UTF-8 unit announces the length of the unit, and the unit has the code point
of its character. -/
theorem announced_and_codePoint (c : Char) :
    ∃ lead rest, String.utf8EncodeChar c = lead :: rest ∧
      announced lead = rest.length + 1 ∧ codePoint (lead :: rest) = c.toNat := by
  have hmax : c.val.toNat < 0x110000 := by
    rcases c.valid with h | ⟨-, h⟩
    · exact Nat.lt_trans h (by decide)
    · exact h
  have hval : c.toNat = c.val.toNat := rfl
  unfold String.utf8EncodeChar
  dsimp only
  by_cases h₁ : c.val.toNat ≤ 0x7f
  · refine ⟨_, _, if_pos h₁, ?_, ?_⟩
    · simp only [announced, UInt8.lt_iff_toNat_lt, UInt8.toNat_ofNat', UInt8.reduceToNat,
        List.length_nil]
      rw [if_pos (by omega)]
    · simp only [codePoint, UInt8.toNat_ofNat']
      omega
  · by_cases h₂ : c.val.toNat ≤ 0x7ff
    · refine ⟨_, _, (if_neg h₁).trans (if_pos h₂), ?_, ?_⟩
      · simp only [announced, UInt8.lt_iff_toNat_lt, UInt8.toNat_ofNat', UInt8.reduceToNat,
          List.length_cons, List.length_nil]
        rw [if_neg (by omega), if_pos (by omega)]
      · simp only [codePoint, UInt8.toNat_ofNat']
        omega
    · by_cases h₃ : c.val.toNat ≤ 0xffff
      · refine ⟨_, _, (if_neg h₁).trans ((if_neg h₂).trans (if_pos h₃)), ?_, ?_⟩
        · simp only [announced, UInt8.lt_iff_toNat_lt, UInt8.toNat_ofNat', UInt8.reduceToNat,
            List.length_cons, List.length_nil]
          rw [if_neg (by omega), if_neg (by omega), if_pos (by omega)]
        · simp only [codePoint, UInt8.toNat_ofNat']
          omega
      · refine ⟨_, _, (if_neg h₁).trans ((if_neg h₂).trans (if_neg h₃)), ?_, ?_⟩
        · simp only [announced, UInt8.lt_iff_toNat_lt, UInt8.toNat_ofNat', UInt8.reduceToNat,
            List.length_cons, List.length_nil]
          rw [if_neg (by omega), if_neg (by omega), if_neg (by omega)]
        · simp only [codePoint, UInt8.toNat_ofNat']
          omega

/-- A text that starts with the spelling of a character has the character as its first rune. -/
theorem first_encoded {c : Char} {lead : UInt8} {rest : Text}
    (h : String.utf8EncodeChar c = lead :: rest) (text : Text) :
    first lead (rest ++ text) = char c := by
  obtain ⟨lead', rest', h', hlength, hcode⟩ := announced_and_codePoint c
  rw [h] at h'
  injection h' with hlead hrest
  rw [← hlead] at hlength hcode
  rw [← hrest] at hlength hcode
  have htake : (lead :: (rest ++ text)).take (announced lead) = lead :: rest := by
    rw [hlength, List.take_succ_cons, List.take_left]
  unfold first
  dsimp only
  rw [htake, hcode, Char.ofNat_toNat, if_pos h]

end Rune

namespace Text

/-- The bytes to be skipped may be taken away. -/
theorem runesAfter_skip (skipped text : Text) :
    runesAfter skipped.length (skipped ++ text) = runesAfter 0 text := by
  induction skipped with
  | nil => rfl
  | cons b rest ih =>
    rw [List.length_cons, List.cons_append, runesAfter]
    exact ih

/-- A text that starts with spelled characters starts with these characters as runes. -/
theorem runes_ofChars_append (cs : List Char) (text : Text) :
    (ofChars cs ++ text).runes = cs.map Rune.char ++ text.runes := by
  induction cs with
  | nil => rfl
  | cons c cs ih =>
    obtain ⟨lead, rest, h, -, -⟩ := Rune.announced_and_codePoint c
    have hspelled : ofChars (c :: cs) ++ text = lead :: (rest ++ (ofChars cs ++ text)) := by
      unfold ofChars
      rw [List.flatMap_cons, h]
      simp
    have hwidth : (Rune.char c).width - 1 = rest.length := by
      show (String.utf8EncodeChar c).length - 1 = rest.length
      rw [h]
      rfl
    rw [hspelled]
    unfold runes
    rw [runesAfter, Rune.first_encoded h, hwidth, runesAfter_skip]
    show Rune.char c :: (ofChars cs ++ text).runes = _
    rw [ih]
    rfl

/-- An encoded text is decoded to its characters. -/
theorem runes_ofChars (cs : List Char) : (ofChars cs).runes = cs.map Rune.char := by
  have h := runes_ofChars_append cs []
  rw [List.append_nil] at h
  exact h.trans (List.append_nil _)

/-- The text that spells a string gives the string back. -/
theorem toString?_ofString (s : String) : (ofString s).toString? = some s := by
  have hmap : ∀ cs : List Char, (cs.map Rune.char).mapM Rune.char? = some cs := by
    intro cs
    induction cs with
    | nil => rfl
    | cons c cs ih => simp [List.mapM_cons, ih, Rune.char?]
  unfold toString? ofString
  rw [runes_ofChars, hmap]
  simp

/-- The first rune takes its bytes from the front of the text. -/
theorem bytes_first (lead : UInt8) (rest : Text) :
    (Rune.first lead rest).bytes ++ rest.drop ((Rune.first lead rest).width - 1) = lead :: rest := by
  have hannounced : ∃ n, Rune.announced lead = n + 1 := by
    unfold Rune.announced
    split
    · exact ⟨0, rfl⟩
    · split
      · exact ⟨1, rfl⟩
      · split
        · exact ⟨2, rfl⟩
        · exact ⟨3, rfl⟩
  obtain ⟨n, hn⟩ := hannounced
  unfold Rune.first
  dsimp only
  rw [hn, List.take_succ_cons]
  split
  · rename_i hunit
    have hbytes : (Rune.char (Char.ofNat (Rune.codePoint (lead :: rest.take n)))).bytes =
        lead :: rest.take n := hunit
    rw [Rune.width, hbytes, List.length_cons, Nat.add_sub_cancel, List.length_take, List.cons_append]
    rcases Nat.le_total n rest.length with hle | hle
    · rw [Nat.min_eq_left hle, List.take_append_drop]
    · rw [Nat.min_eq_right hle, List.drop_length, List.append_nil, List.take_of_length_le hle]
  · rfl

/-- Nothing is lost by reading runes: their bytes are the text again. -/
theorem bytes_runesAfter (skip : Nat) (t : Text) :
    (runesAfter skip t).flatMap Rune.bytes = t.drop skip := by
  fun_induction runesAfter skip t with
  | case1 skip => rw [List.drop_nil, List.flatMap_nil]
  | case2 skip b rest ih => rw [ih, List.drop_succ_cons]
  | case3 b rest r ih => rw [List.flatMap_cons, ih, bytes_first, List.drop_zero]

/-- A text that spells a string is the text of the string. -/
theorem ofString_of_toString? {t : Text} {s : String} (h : t.toString? = some s) :
    ofString s = t := by
  have hall : ∀ (rs : List Rune) (cs : List Char), rs.mapM Rune.char? = some cs →
      ofChars cs = rs.flatMap Rune.bytes := by
    intro rs
    induction rs with
    | nil =>
      intro cs hcs
      rw [List.mapM_nil, Option.pure_def, Option.some.injEq] at hcs
      rw [← hcs]
      rfl
    | cons r rs ih =>
      intro cs hcs
      cases r with
      | stray b => simp [Rune.char?] at hcs
      | char c =>
        rw [List.mapM_cons] at hcs
        cases hrest : rs.mapM Rune.char? with
        | none => simp [hrest, Rune.char?] at hcs
        | some ds =>
          simp only [hrest, Rune.char?, Option.pure_def, Option.bind_eq_bind, Option.bind_some,
            Option.some.injEq] at hcs
          rw [← hcs, List.flatMap_cons, ← ih ds hrest]
          rfl
  obtain ⟨cs, hcs, rfl⟩ := Option.map_eq_some_iff.mp h
  rw [ofString, String.toList_ofList, hall _ cs hcs]
  exact bytes_runesAfter 0 t

end Text

end Offside
