import Offside.Proofs.Text.Utf8

/-!
# Runes of joined texts and of cut texts

A UTF-8 unit has no byte below 0x80 but its first, so where a text goes on with such a byte no unit
goes across: the runes are those of the two parts (`Text.runes_append`). And a text can be cut behind
any of its runes without changing those in front of the cut (`Text.runes_bytes_of_isPrefix`), since a
byte that belongs to no unit belongs to none when less follows it.
-/

set_option autoImplicit false

namespace Offside

namespace Rune

/-- The bytes behind the first one of a UTF-8 unit are not ASCII. -/
theorem le_of_mem_unit {c : Char} {lead : UInt8} {rest : Text}
    (h : String.utf8EncodeChar c = lead :: rest) {b : UInt8} (hb : b ∈ rest) : 0x80 ≤ b := by
  have hlow : ∀ n : Nat, (0x80 : UInt8) ≤ UInt8.ofNat (n % 0x40 + 0x80) := by
    intro n
    rw [UInt8.le_iff_toNat_le, UInt8.toNat_ofNat']
    simp
    omega
  unfold String.utf8EncodeChar at h
  dsimp only at h
  split_ifs at h <;> simp only [List.cons.injEq] at h <;> obtain ⟨-, rfl⟩ := h
  · simp at hb
  all_goals
    simp only [List.mem_cons, List.not_mem_nil, or_false] at hb
    rcases hb with rfl | rfl | rfl <;> exact hlow _

/-- A text starts with a character if and only if it starts with the unit of that character. -/
theorem first_eq_char_iff {lead : UInt8} {rest : Text} {c : Char} :
    first lead rest = char c ↔ String.utf8EncodeChar c <+: lead :: rest := by
  constructor
  · intro h
    have hbytes := Text.bytes_first lead rest
    rw [h] at hbytes
    exact ⟨_, hbytes⟩
  · rintro ⟨text, h⟩
    obtain ⟨lead', rest', hunit, -, -⟩ := announced_and_codePoint c
    rw [hunit] at h
    simp only [List.cons_append, List.cons.injEq] at h
    obtain ⟨rfl, rfl⟩ := h
    exact first_encoded hunit text

/-- The only byte that can be stray in front of a text is the first one. -/
theorem first_eq_stray {lead b : UInt8} {rest : Text} (h : first lead rest = stray b) : b = lead := by
  unfold first at h
  dsimp only at h
  split at h
  · simp at h
  · exact (stray.inj h).symm

/-- A byte that is stray in front of a text is stray in front of every beginning of it. -/
theorem first_of_isPrefix {lead : UInt8} {rest rest' : Text} (hrest : rest' <+: rest)
    (h : first lead rest = stray lead) : first lead rest' = stray lead := by
  cases hfirst : first lead rest' with
  | stray b => rw [first_eq_stray hfirst]
  | char c =>
    have hunit := (first_eq_char_iff.mp hfirst).trans (List.cons_prefix_cons.mpr ⟨rfl, hrest⟩)
    rw [first_eq_char_iff.mpr hunit] at h
    simp at h

/-- The byte that follows a text is in no unit that starts in the text. -/
theorem first_append {lead b : UInt8} (hb : b < 0x80) (rest text : Text) :
    first lead (rest ++ b :: text) = first lead rest := by
  cases hwhole : first lead (rest ++ b :: text) with
  | stray a =>
    obtain rfl := first_eq_stray hwhole
    exact (first_of_isPrefix (List.prefix_append _ _) hwhole).symm
  | char c =>
    have hunit := first_eq_char_iff.mp hwhole
    have hshort : String.utf8EncodeChar c <+: lead :: rest := by
      rw [← List.cons_append] at hunit
      rcases List.prefix_or_prefix_of_prefix hunit (List.prefix_append _ (b :: text)) with h | ⟨u, h⟩
      · exact h
      · rw [← h, List.prefix_append_right_inj] at hunit
        cases u with
        | nil => simp [← h]
        | cons b' u =>
          -- the unit would reach the byte, which is too small to be in it
          have hb' : b' = b := by simpa using (List.cons_prefix_cons.mp hunit).1
          have hlow := le_of_mem_unit h.symm (b := b) (by simp [hb'])
          exact absurd hb (UInt8.not_lt.mpr hlow)
    rw [first_eq_char_iff.mpr hshort]

end Rune

namespace Text

/-- The first rune of a text takes no more bytes than there are. -/
theorem width_first_le (lead : UInt8) (rest : Text) :
    (Rune.first lead rest).width - 1 ≤ rest.length := by
  have h := congrArg List.length (bytes_first lead rest)
  simp only [List.length_append, List.length_cons] at h
  unfold Rune.width
  omega

/-- Runes end in front of an ASCII byte, so a text can be cut there. -/
theorem runesAfter_append {b : UInt8} (hb : b < 0x80) (text : Text) (skip : Nat) (t : Text)
    (hskip : skip ≤ t.length) :
    runesAfter skip (t ++ b :: text) = runesAfter skip t ++ runes (b :: text) := by
  fun_induction runesAfter skip t with
  | case1 skip =>
    have hzero : skip = 0 := by simpa using hskip
    rw [hzero]
    rfl
  | case2 skip a rest ih =>
    rw [List.cons_append, runesAfter]
    exact ih (by simpa using hskip)
  | case3 a rest r ih =>
    rw [List.cons_append, runesAfter, Rune.first_append hb, List.cons_append]
    rw [ih (width_first_le a rest)]

/-- Where a text goes on with a byte below 0x80, its runes are those of the two parts. -/
theorem runes_append {b : UInt8} (hb : b < 0x80) (t text : Text) :
    (t ++ b :: text).runes = t.runes ++ runes (b :: text) :=
  runesAfter_append hb text 0 t (Nat.zero_le _)

/-- A stray byte is a rune of its own. -/
theorem runes_stray {b : UInt8} {text : Text} (h : Rune.first b text = .stray b) :
    runes (b :: text) = .stray b :: runes text := by
  show runesAfter 0 (b :: text) = _
  rw [runesAfter, h]
  rfl

/-- The runes at the front of a text are the runes of their own bytes. -/
theorem runes_bytes_of_isPrefix {t : Text} {rs : List Rune} (skip : Nat)
    (h : rs <+: runesAfter skip t) : runes (rs.flatMap Rune.bytes) = rs := by
  fun_induction runesAfter skip t generalizing rs with
  | case1 skip =>
    rw [List.prefix_nil.mp h]
    rfl
  | case2 skip b rest ih => exact ih h
  | case3 b rest r =>
    rename_i ih
    have hr : Rune.first b rest = r := rfl
    clear_value r
    cases rs with
    | nil => rfl
    | cons r' rs =>
      obtain ⟨rfl, hrs⟩ := List.cons_prefix_cons.mp h
      have htail := ih hrs
      rw [List.flatMap_cons]
      cases r' with
      | char c =>
        have happend := runes_ofChars_append [c] (rs.flatMap Rune.bytes)
        simp only [ofChars, List.flatMap_cons, List.flatMap_nil, List.append_nil, htail,
          List.map_cons, List.map_nil] at happend
        exact happend
      -- the byte stays stray although less may follow it now
      | stray a =>
        obtain rfl := Rune.first_eq_stray hr
        have hbytes : rs.flatMap Rune.bytes <+: rest := by
          obtain ⟨more, hmore⟩ := hrs
          have hall := bytes_runesAfter 0 rest
          rw [List.drop_zero] at hall
          refine ⟨more.flatMap Rune.bytes, ?_⟩
          rw [← List.flatMap_append, hmore]
          exact hall
        have hstray := runes_stray (Rune.first_of_isPrefix hbytes hr)
        rw [htail] at hstray
        exact hstray

end Text

end Offside
