import Offside.Proofs.Token.Lexemes

/-!
# Reading undoes printing

A list of kinds and values is printed token by token with single blanks between them. A blank is a
gap, and no lexeme goes on with a blank, so the printed text is cut where it was put together
(`Cut.of_printed`): it is read as the kinds and values that were printed (`tokens_of_printed`).
-/

set_option autoImplicit false

namespace Offside

/-- The characters that are printed for a token. -/
def Kind.printed (k : Kind) (value : String) : List Char :=
  match k with
  | newline => Piece.newline.chars
  | k => (Piece.word k value).chars

/-- The printed tokens of the kinds and values, with single blanks between them. -/
def Text.printed (words : List (Kind × String)) : Text :=
  ofChars ([' '].intercalate (words.map fun w => w.1.printed w.2))

/-- An encoded text has the characters that were encoded. -/
theorem Text.chars_ofChars (cs : List Char) : (ofChars cs).chars = cs := by
  rw [chars, runes_ofChars, List.map_map]
  exact List.map_id cs

/-- What is printed for a word spells it. -/
theorem Kind.spells_printed (k : Kind) (value : String) : k.Spells value (k.printed value) := by
  cases k with
  | string => exact ⟨_, Piece.denotes_escape value.toList, rfl⟩
  | _ => exact rfl

/-- A single blank is a gap. -/
theorem Gap.space (after : List Char) : Gap after [' '] := .blank (by decide) (by decide) .nil

/-- Behind any gap, printed tokens are cut where they were put together. -/
theorem Cut.of_printed {words : List (Kind × String)}
    (hwords : ∀ w ∈ words, w.1.admits w.2 = true) {gap : List Char} (hgap : ∀ after, Gap after gap)
    (before : List Char) :
    ∃ tokens, Cut before
        (gap ++ [' '].intercalate (words.map fun w => w.1.printed w.2)) tokens ∧
      tokens.map (fun t => (t.kind, t.value)) = words ++ [(.endOfInput, "")] := by
  induction words generalizing gap before with
  | nil =>
    rw [List.map_nil, List.intercalate_nil, List.append_nil]
    exact ⟨_, .finish (hgap []), rfl⟩
  | cons w words ih =>
    obtain ⟨kind, value⟩ := w
    obtain ⟨hvalue, hwords⟩ := List.forall_mem_cons.mp hwords
    have hspells := kind.spells_printed value
    cases words with
    | nil =>
      have hcut : Cut before (gap ++ (kind.printed value ++ [])) [_, _] :=
        .token (hgap _) hvalue hspells rfl (.finish .nil)
      rw [List.append_nil] at hcut
      rw [List.map_singleton, List.intercalate_singleton]
      exact ⟨_, hcut, rfl⟩
    | cons v words =>
      obtain ⟨tokens, hcut, htokens⟩ := ih hwords Gap.space (before ++ gap ++ kind.printed value)
      refine ⟨⟨kind, value, .behind (before ++ gap)⟩ :: tokens, ?_, ?_⟩
      · rw [List.map_cons, List.map_cons, List.intercalate_cons_cons, List.append_assoc]
        exact .token (hgap _) hvalue hspells
          (Scan.not_goesOn_of_mem_enders (by decide) kind _) hcut
      · rw [List.map_cons, htokens]
        rfl

/-- Printed tokens are read as the kinds and values that were printed, and then the text ends. -/
theorem tokens_of_printed {words : List (Kind × String)}
    (h : ∀ w ∈ words, w.1.admits w.2 = true) :
    (TokenStream.ofText (.printed words)).halt? = none ∧
      (TokenStream.ofText (.printed words)).toList.map (fun t => (t.kind, t.value)) =
        words ++ [(.endOfInput, "")] := by
  obtain ⟨tokens, hcut, htokens⟩ := Cut.of_printed h (fun _ => .nil) []
  rw [List.nil_append, ← Text.chars_ofChars (List.intercalate _ _)] at hcut
  obtain ⟨hhalt, hlist⟩ := TokenStream.toList_of_cut hcut
  refine ⟨hhalt, ?_⟩
  rw [Text.printed, hlist]
  exact htokens

/-- A minus in front of a comparison, a string that holds a quote, a backslash and a line break, and a
line break of its own. -/
theorem tokens_of_printed_minus_greater :
    (TokenStream.ofText (.ofString "größe = 03.10 - > \n \"a\\\"\\\\\\n\tb\" let true")).halt? =
        none ∧
      (TokenStream.ofText (.ofString
          "größe = 03.10 - > \n \"a\\\"\\\\\\n\tb\" let true")).toList.map
          (fun t => (t.kind, t.value)) =
        [(.identifier, "größe"), (.assign, "="), (.float, "03.10"), (.minus, "-"), (.greater, ">"),
          (.newline, ""), (.string, "a\"\\\n\tb"), (.letWord, "let"), (.boolean, "true"),
          (.endOfInput, "")] := by
  have hprinted : Text.ofString "größe = 03.10 - > \n \"a\\\"\\\\\\n\tb\" let true" =
      .printed [(.identifier, "größe"), (.assign, "="), (.float, "03.10"), (.minus, "-"),
        (.greater, ">"), (.newline, ""), (.string, "a\"\\\n\tb"), (.letWord, "let"),
        (.boolean, "true")] := by decide +kernel
  rw [hprinted]
  exact tokens_of_printed (List.all_eq_true.mp (by decide +kernel))

end Offside
