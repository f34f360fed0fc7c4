import Offside.Proofs.Text.Quoted
import Offside.Proofs.Tree.WellFormed

/-!
# Data

An s-expression is a word, a quoted text, or a list of such in parentheses. Whatever follows it,
what is written for a datum determines the datum and where it ends (`Datum.spell_inj`): its first
character tells which of the three it is, a word goes on until a character that no word contains, a
quoted text closes at its own quote (`Quoted.chars_inj`), and of a list the items are determined one
after the other.
-/

set_option autoImplicit false

namespace Offside

namespace SExpr

/-- What an s-expression consists of: words, quoted texts, and lists of such in parentheses. -/
inductive Datum where
  /-- A word that stands for itself. -/
  | word (w : String)
  /-- A text in quotes. -/
  | quoted (t : Text)
  /-- Data in parentheses, with a space between each two. -/
  | list (items : List Datum)

/-- A list that starts with a word. -/
@[match_pattern]
abbrev Datum.form (head : String) (items : List Datum) : Datum := .list (.word head :: items)

/-- The characters that no word contains. -/
def breaks : List Char := [' ', '(', ')', '"']

/-- Whether a character can be a part of a word. -/
def isWordChar (c : Char) : Bool := !breaks.contains c

mutual

/-- Writes a datum in front of `k`. -/
def Datum.spell : Datum → List Char → List Char
  | .word w, k => w.toList ++ k
  | .quoted t, k => Quoted.chars t ++ k
  | .list [], k => '(' :: ')' :: k
  | .list (first :: rest), k => '(' :: first.spell (Datum.spellEach rest (')' :: k))

/-- Writes data in front of `k`, each behind a space. -/
def Datum.spellEach : List Datum → List Char → List Char
  | [], k => k
  | d :: rest, k => ' ' :: d.spell (Datum.spellEach rest k)

end

mutual

/-- Whether the words of a datum are words indeed, and its texts valid. -/
def Datum.isProper : Datum → Bool
  | .word w => !w.toList.isEmpty && w.toList.all isWordChar
  | .quoted t => t.isValid
  | .list items => Datum.areProper items

/-- Whether the words of several data are words indeed, and their texts valid. -/
def Datum.areProper : List Datum → Bool
  | [] => true
  | d :: rest => d.isProper && Datum.areProper rest

end

/-- A form of a proper word and proper items is proper. -/
theorem Datum.isProper_form {head : String} {items : List Datum}
    (hhead : (word head).isProper = true) (hitems : areProper items = true) :
    (form head items).isProper = true := by
  rw [isProper, areProper, hhead, hitems, Bool.true_and]

/-- A word is proper if all its characters have some property that sets them apart from those that
no word contains. -/
theorem Datum.isProper_word {p : Char → Bool} (hp : breaks.all (fun c => !p c) = true) {w : String}
    (hne : w.toList ≠ []) (hw : w.toList.all p = true) : (word w).isProper = true := by
  rw [isProper, Bool.and_eq_true, Bool.not_eq_true', List.isEmpty_eq_false_iff, List.all_eq_true]
  refine ⟨hne, fun c hc => ?_⟩
  rw [isWordChar, Bool.not_eq_true', ← Bool.not_eq_true, List.contains_iff_mem]
  intro hbreak
  have hnot := List.all_eq_true.mp hp c hbreak
  rw [List.all_eq_true.mp hw c hc] at hnot
  exact Bool.noConfusion hnot

/-- No character that could go on a word comes first. -/
def Ends (k : List Char) : Prop := ∀ c, k.head? = some c → isWordChar c = false

/-- A word ends where nothing follows. -/
theorem ends_nil : Ends [] := by
  intro c hc
  simp at hc

/-- A word ends in front of a character that cannot be in it. -/
theorem ends_cons {c : Char} (hc : isWordChar c = false) (k : List Char) : Ends (c :: k) := by
  intro d hd
  rw [← Option.some.inj hd]
  exact hc

/-- Inside a list every item ends, before a space or the closing parenthesis. -/
theorem ends_spellEach (ds : List Datum) (k : List Char) :
    Ends (Datum.spellEach ds (')' :: k)) := by
  cases ds with
  | nil => exact ends_cons (by decide) k
  | cons d rest => exact ends_cons (by decide) _

/-- A word ends where it cannot go on. -/
theorem word_inj {w w' k k' : List Char} (hw : w.all isWordChar = true)
    (hw' : w'.all isWordChar = true) (hk : Ends k) (hk' : Ends k') (h : w ++ k = w' ++ k') :
    w = w' ∧ k = k' := by
  have htake : ∀ {w k : List Char}, w.all isWordChar = true → Ends k →
      (w ++ k).takeWhile isWordChar = w := by
    intro w k hw hk
    rw [List.takeWhile_append_of_pos (List.all_eq_true.mp hw)]
    cases k with
    | nil => simp
    | cons c k => simp [hk c rfl]
  have hwords : w = w' := by rw [← htake hw hk, h, htake hw' hk']
  subst hwords
  exact ⟨rfl, List.append_cancel_left h⟩

/-- The character that a datum starts with if it is not a word. -/
def Datum.mark : Datum → Option Char
  | .word _ => none
  | .quoted _ => some '"'
  | .list _ => some '('

/-- The first character of a datum tells words, quoted texts and lists apart, and is no closing
parenthesis. -/
theorem Datum.spell_cons {d : Datum} (hd : d.isProper = true) (k : List Char) :
    ∃ c cs, d.spell k = c :: cs ∧ c ≠ ')' ∧ d.mark = if isWordChar c then none else some c := by
  cases d with
  | word w =>
    rw [isProper, Bool.and_eq_true, List.all_eq_true] at hd
    rw [spell]
    cases hw : w.toList with
    | nil => simp [hw] at hd
    | cons c cs =>
      have hc : isWordChar c = true := hd.2 c (by simp [hw])
      refine ⟨c, cs ++ k, rfl, ?_, by rw [if_pos hc, mark]⟩
      rintro rfl
      exact absurd hc (by decide)
  | quoted t => exact ⟨'"', _, rfl, by decide, rfl⟩
  | list items =>
    cases items with
    | nil => exact ⟨'(', _, rfl, by decide, rfl⟩
    | cons first rest => exact ⟨'(', _, rfl, by decide, rfl⟩

/-- Data that start alike are of one form. -/
theorem Datum.mark_eq {d d' : Datum} (hd : d.isProper = true) (hd' : d'.isProper = true)
    {k k' : List Char} (h : d.spell k = d'.spell k') : d.mark = d'.mark := by
  obtain ⟨c, cs, hspell, -, hmark⟩ := spell_cons hd k
  obtain ⟨c', cs', hspell', -, hmark'⟩ := spell_cons hd' k'
  rw [hspell, hspell', List.cons.injEq] at h
  rw [hmark, hmark', h.1]

/-- Lists that are written alike have items that are, since an empty one is closed at once. -/
theorem Datum.spellEach_eq_of_list {items items' : List Datum} (h : areProper items = true)
    (h' : areProper items' = true) {k k' : List Char}
    (hspell : (list items).spell k = (list items').spell k') :
    spellEach items (')' :: k) = spellEach items' (')' :: k') := by
  cases items with
  | nil =>
    cases items' with
    | nil => simpa [spell, spellEach] using hspell
    | cons d' rest' =>
      rw [areProper, Bool.and_eq_true] at h'
      obtain ⟨c, cs, hfirst, hclose, -⟩ := spell_cons h'.1 (spellEach rest' (')' :: k'))
      rw [spell, spell, hfirst, List.cons.injEq, List.cons.injEq] at hspell
      exact absurd hspell.2.1.symm hclose
  | cons d rest =>
    cases items' with
    | nil =>
      rw [areProper, Bool.and_eq_true] at h
      obtain ⟨c, cs, hfirst, hclose, -⟩ := spell_cons h.1 (spellEach rest (')' :: k))
      rw [spell, spell, hfirst, List.cons.injEq, List.cons.injEq] at hspell
      exact absurd hspell.2.1 hclose
    | cons d' rest' =>
      rw [spell, spell, List.cons.injEq] at hspell
      rw [spellEach, spellEach, hspell.2]

mutual

/-- A datum, and what follows it, are determined by what is written for them, unless a word could be
taken to go on. -/
theorem Datum.spell_inj (d d' : Datum) (hd : d.isProper = true) (hd' : d'.isProper = true)
    {k k' : List Char} (hk : Ends k) (hk' : Ends k') (h : d.spell k = d'.spell k') :
    d = d' ∧ k = k' := by
  have hmark := mark_eq hd hd' h
  cases d with
  | word w =>
    cases d' with
    | word w' =>
      rw [isProper, Bool.and_eq_true] at hd hd'
      obtain ⟨hw, hrest⟩ := word_inj hd.2 hd'.2 hk hk' h
      exact ⟨congrArg word (String.toList_inj.mp hw), hrest⟩
    | quoted | list => simp [mark] at hmark
  | quoted t =>
    cases d' with
    | quoted t' =>
      obtain ⟨ht, hrest⟩ := Quoted.chars_inj hd hd' h
      exact ⟨congrArg quoted ht, hrest⟩
    | word | list => simp [mark] at hmark
  | list items =>
    cases d' with
    | list items' =>
      obtain ⟨hitems, hrest⟩ := spellEach_inj items items' hd hd' (spellEach_eq_of_list hd hd' h)
      exact ⟨congrArg list hitems, hrest⟩
    | word | quoted => simp [mark] at hmark

/-- The items of a list, and what follows its closing parenthesis, are determined. -/
theorem Datum.spellEach_inj (ds ds' : List Datum) (hds : areProper ds = true)
    (hds' : areProper ds' = true) {k k' : List Char}
    (h : spellEach ds (')' :: k) = spellEach ds' (')' :: k')) : ds = ds' ∧ k = k' := by
  cases ds with
  | nil =>
    cases ds' with
    | nil => exact ⟨rfl, by simpa [spellEach] using h⟩
    | cons d' rest' => simp [spellEach] at h
  | cons d rest =>
    cases ds' with
    | nil => simp [spellEach] at h
    | cons d' rest' =>
      rw [areProper, Bool.and_eq_true] at hds hds'
      rw [spellEach, spellEach, List.cons.injEq] at h
      obtain ⟨hfirst, hafter⟩ := spell_inj d d' hds.1 hds'.1 (ends_spellEach rest k)
        (ends_spellEach rest' k') h.2
      obtain ⟨hrest, hk⟩ := spellEach_inj rest rest' hds.2 hds'.2 hafter
      exact ⟨by rw [hfirst, hrest], hk⟩

end

end SExpr

end Offside
