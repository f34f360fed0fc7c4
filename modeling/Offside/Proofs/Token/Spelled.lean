import Offside.Proofs.Token.Spelling

/-!
# Tokens of reserved words and signs

All tokens of one reserved word, or of one sign, have the same value: the spelling of their kind. A
token of a truth word has one of two values. So the kind of such a token says what its value is.
-/

set_option autoImplicit false

namespace Offside

/-- The token has the value that its kind prescribes, where the kind prescribes one. -/
structure Token.Spelled (t : Token) : Prop where
  fixed : t.kind ∈ Kind.reserved ++ Kind.signs → t.value = t.kind.spelling
  truth : t.kind = .boolean → t.value = "true" ∨ t.value = "false"

/-- A token whose kind prescribes no value. -/
theorem Token.Spelled.of_free {kind : Kind} (hfixed : kind ∉ Kind.reserved ++ Kind.signs)
    (htruth : kind ≠ .boolean) (value : String) (pos : Position) :
    Token.Spelled ⟨kind, value, pos⟩ :=
  ⟨fun h => absurd h hfixed, fun h => absurd h htruth⟩

/-- A word with a reserved kind is that reserved word. -/
theorem Kind.spelled_ofWord (word : String) (pos : Position) :
    Token.Spelled ⟨Kind.ofWord word, word, pos⟩ := by
  unfold Kind.ofWord
  cases hl : Kind.keywords.lookup word with
  | none => exact .of_free (by decide) (by decide) word pos
  | some k =>
    obtain ⟨before, after, hsplit, -⟩ := List.lookup_eq_some_iff.mp hl
    have hmem : (word, k) ∈ Kind.keywords := by
      rw [hsplit]
      simp
    simp only [Kind.keywords, List.mem_cons, Prod.mk.injEq, List.not_mem_nil, or_false] at hmem
    constructor
    · intro hfixed
      change k ∈ Kind.reserved ++ Kind.signs at hfixed
      rcases hmem with ⟨rfl, rfl⟩ | ⟨rfl, rfl⟩ | ⟨rfl, rfl⟩ | ⟨rfl, rfl⟩ | ⟨rfl, rfl⟩ | ⟨rfl, rfl⟩ |
        ⟨rfl, rfl⟩ | ⟨rfl, rfl⟩ | ⟨rfl, rfl⟩ | ⟨rfl, rfl⟩ | ⟨rfl, rfl⟩ | ⟨rfl, rfl⟩ | ⟨rfl, rfl⟩
      all_goals first
        | rfl
        | exact absurd hfixed (by decide)
    · intro htruth
      change k = .boolean at htruth
      subst htruth
      simp only [reduceCtorEq, and_false, and_true, false_or, or_false] at hmem
      exact hmem

namespace Scan

variable {s : Spot} {rest : List Spot}

/-- If a token is given, it is spelled as its kind prescribes. -/
def GivesSpelled (outcome : Except Halt Token) : Prop := ∀ t, outcome = .ok t → t.Spelled

/-- A stop gives no token. -/
theorem givesSpelled_error (h : Halt) : GivesSpelled (.error h) := by
  intro t ht
  simp at ht

/-- A kind that leaves its spelling open may be spelled in any way. -/
theorem givesSpelled_free {kind : Kind} (chars : List Char)
    (hfixed : kind ∉ Kind.reserved ++ Kind.signs) (htruth : kind ≠ .boolean) :
    GivesSpelled (lexeme kind chars s.pos rest).1 := by
  intro t ht
  injection ht with ht
  subst ht
  exact .of_free hfixed htruth _ _

/-- A kind is spelled by the characters it stands for. -/
theorem givesSpelled_sign {kind : Kind} {chars : List Char}
    (hspelling : kind.spelling = String.ofList chars) (htruth : kind ≠ .boolean) :
    GivesSpelled (lexeme kind chars s.pos rest).1 := by
  intro t ht
  injection ht with ht
  subst ht
  exact ⟨fun _ => hspelling.symm, fun h => absurd h htruth⟩

/-- The sign of a character is spelled by that character. -/
theorem spelling_of_sign? {c : Char} {kind : Kind} (h : sign? c = some kind) :
    kind.spelling = String.ofList [c] ∧ kind ≠ .boolean := by
  unfold sign? at h
  split at h
  all_goals cases h
  all_goals exact ⟨by decide, by decide⟩

/-- A sign is spelled as it should be. -/
theorem givesSpelled_plainSign {kind : Kind} (broken : Bool) (h : sign? s.char = some kind) :
    GivesSpelled (plainSign broken kind s rest).1 := by
  obtain ⟨hspelling, htruth⟩ := spelling_of_sign? h
  unfold plainSign
  split
  · exact givesSpelled_error _
  · exact givesSpelled_sign hspelling htruth

/-- A sign that may be extended is spelled by its character, and extended by both. -/
theorem spelling_of_extensible? {c : Char} {e : Extensible} (h : extensible? c = some e) :
    (e.extended.spelling = String.ofList [c, e.second] ∧ e.extended ≠ .boolean) ∧
      ∀ k, e.alone = some k → k.spelling = String.ofList [c] ∧ k ≠ .boolean := by
  unfold extensible? at h
  split at h
  all_goals cases h
  all_goals
    refine ⟨⟨by decide, by decide⟩, fun k hk => ?_⟩
    cases hk
  all_goals exact ⟨by decide, by decide⟩

/-- A sign that may be extended is spelled as it should be, extended or not. -/
theorem givesSpelled_extensibleSign {e : Extensible} (broken : Bool)
    (h : extensible? s.char = some e) : GivesSpelled (extensibleSign broken e s rest).1 := by
  obtain ⟨hextended, halone⟩ := spelling_of_extensible? h
  unfold extensibleSign
  split
  · exact givesSpelled_error _
  · split
    · exact givesSpelled_sign hextended.1 hextended.2
    · cases hk : e.alone with
      | none => exact givesSpelled_error _
      | some k => exact givesSpelled_sign (halone k hk).1 (halone k hk).2

/-- Strings may be spelled in any way. -/
theorem givesSpelled_string (broken : Bool) : GivesSpelled (string broken s rest).1 := by
  unfold string
  dsimp only
  split
  · exact givesSpelled_free _ (by decide) (by decide)
  · exact givesSpelled_error _
  · exact givesSpelled_error _

/-- Numbers may be spelled in any way. -/
theorem givesSpelled_number (broken : Bool) : GivesSpelled (number broken s rest).1 := by
  unfold number
  dsimp only
  split
  · exact givesSpelled_error _
  · split
    · exact givesSpelled_free _ (by decide) (by decide)
    · exact givesSpelled_free _ (by decide) (by decide)

/-- A reserved word or a boolean is spelled as it should be. -/
theorem givesSpelled_word (broken : Bool) : GivesSpelled (word broken s rest).1 := by
  unfold word
  dsimp only
  split
  · exact givesSpelled_error _
  · intro t ht
    injection ht with ht
    subst ht
    exact Kind.spelled_ofWord _ s.pos

/-- What starts with a character is spelled as it should be. -/
theorem givesSpelled_lexemeAt (broken : Bool) (s : Spot) (rest : List Spot) :
    GivesSpelled (lexemeAt broken s rest).1 := by
  unfold lexemeAt
  split
  · exact givesSpelled_free _ (by decide) (by decide)
  · split
    · rename_i h
      exact givesSpelled_extensibleSign broken h
    · rename_i h
      exact givesSpelled_plainSign broken h
    · split
      · exact givesSpelled_string broken
      · split
        · exact givesSpelled_number broken
        · split
          · exact givesSpelled_word broken
          · exact givesSpelled_error _

end Scan

namespace Source

/-- Every token that a scan gives is spelled as it should be. -/
theorem spelled_of_scan {s left : Source} {t : Token} (h : s.scan = (.ok t, left)) : t.Spelled := by
  unfold scan at h
  split at h
  · unfold final at h
    split at h
    · simp at h
    · injection h with h
      injection h with h
      subst h
      exact .of_free (by decide) (by decide) "" s.finish
  · rename_i first rest hgap
    injection h with h
    exact Scan.givesSpelled_lexemeAt s.broken first rest t h

/-- All tokens of a source are spelled as their kinds prescribe. -/
theorem stream_spelled (s : Source) : ∀ t ∈ s.stream.front, t.Spelled := by
  fun_induction stream s with
  | case1 => simp
  | case2 => simp
  | case3 s t left h hend hlt more ih =>
    intro u hu
    rcases List.mem_cons.mp hu with rfl | hu
    · exact spelled_of_scan h
    · exact ih u hu

end Source

end Offside
