import Mathlib.Data.List.TakeWhile
import Offside.Proofs.Token.Lexemes

/-!
# Comments behind a text

A comment that is put behind a text is passed over up to its first line break or NUL
(`Source.stream_commented`), since the comment skips characters until it finds one of these two. A
text that is cut into tokens therefore keeps them. If neither of the two is in the comment, only the
end moves; but if a NUL is in it, the comment is over there, and the NUL is refused as a character
that starts no token (`comment_runs_up_to_nul`).
-/

set_option autoImplicit false

namespace Offside

namespace Scan

variable {xs zs : List Spot}

/-- Inside a comment, what is left starts with the first character that ends comments. -/
theorem afterGap_inside (spots : List Spot) :
    afterGap true spots = spots.dropWhile fun s => !endsComment s.char := by
  induction spots with
  | nil => rfl
  | cons s rest ih =>
    cases hs : endsComment s.char with
    | true => simp [afterGap, hs]
    | false => simp [afterGap, hs, ih]

/-- Where a gap goes on to the end of a source, what follows is passed over as its continuation,
inside a comment or outside of one. -/
theorem afterGap_continued (hz : Separated zs) {inComment : Bool}
    (h : afterGap inComment xs = []) :
    ∃ inside, afterGap inComment (xs ++ zs) = afterGap inside zs := by
  induction xs generalizing inComment with
  | nil => exact ⟨inComment, rfl⟩
  | cons x xs ih =>
    cases inComment with
    | true =>
      simp only [List.cons_append, afterGap] at h ⊢
      split_ifs at h ⊢
      exact ih h
    | false =>
      have hslash : startsWith '/' (xs ++ zs) = startsWith '/' xs := by
        cases xs with
        | nil => exact hz.startsWith_eq (by decide) (by decide)
        | cons x' xs => rfl
      simp only [List.cons_append, afterGap, hslash] at h ⊢
      split_ifs at h ⊢
      · exact ih h
      · exact ih h

/-- The start of a comment leads into it, also where it stands in a comment itself. -/
theorem afterGap_opening (inside : Bool) (pos : Position) (rs : List Rune) :
    afterGap inside (Spot.locate pos (.char ' ' :: .char '/' :: .char '/' :: rs)) =
      afterGap true
        (Spot.locate (((pos.advance ' ').advance '/').advance '/') rs) := by
  cases inside <;> rfl

/-- Nothing is passed over in front of what ends a comment. -/
theorem afterGap_dropWhile (spots : List Spot) :
    afterGap false (spots.dropWhile fun s => !endsComment s.char) =
      spots.dropWhile fun s => !endsComment s.char := by
  have hhead := List.head?_dropWhile_not (fun s : Spot => !endsComment s.char) spots
  cases hdrop : spots.dropWhile fun s => !endsComment s.char with
  | nil => rfl
  | cons s rest =>
    have hends : (!endsComment s.char) = false := by
      rw [hdrop] at hhead
      exact hhead
    have hs : s.char = '\n' ∨ s.char = '\x00' := by
      rwa [Bool.not_eq_false', endsComment, Bool.or_eq_true, beq_iff_eq, beq_iff_eq] at hends
    rcases hs with hs | hs
    · simp [afterGap, hs]
    · have hblank : Text.isBlank '\x00' = false := by decide
      simp [afterGap, hs, hblank]

end Scan

namespace Source

open Scan

variable {xs : List Spot} {finish : Position}

/-- A source that is cut into tokens keeps them when a comment follows, and goes on where the
comment ends. -/
theorem stream_commented {e : Token} (h : (⟨xs, finish, false⟩ : Source).stream.final = .ok e)
    (pos finish' : Position) (rs : List Rune) :
    let behind := (Spot.locate (((pos.advance ' ').advance '/').advance '/') rs).dropWhile
      fun s => !endsComment s.char
    (⟨xs ++ Spot.locate pos (.char ' ' :: .char '/' :: .char '/' :: rs), finish', false⟩ :
        Source).stream =
      ⟨(⟨xs, finish, false⟩ : Source).stream.front ++
          (⟨behind, finish', false⟩ : Source).stream.front,
        (⟨behind, finish', false⟩ : Source).stream.final⟩ := by
  intro behind
  have hz : Separated (Spot.locate pos (.char ' ' :: .char '/' :: .char '/' :: rs)) := by
    simp [Separated, Spot.locate, Spot.char, Rune.toChar]
  obtain ⟨rest, hrest, hcontinued⟩ := stream_rest xs finish
  rw [h] at hrest
  obtain ⟨x, left, -, hstream⟩ | ⟨t, left, hscan, ht, -⟩ | ⟨t, left, -, -, hstream⟩ :=
    stream_cases ⟨rest, finish, false⟩
  · simp [hstream] at hrest
  · -- the rest of the source is a gap, which the comment goes on
    obtain ⟨inside, hgap⟩ := afterGap_continued hz (afterGap_of_end rfl hscan ht)
    have hscan' : (⟨rest ++ Spot.locate pos (.char ' ' :: .char '/' :: .char '/' :: rs), finish',
        false⟩ : Source).scan = (⟨behind, finish', false⟩ : Source).scan := by
      unfold scan
      dsimp only
      rw [hgap, afterGap_opening, afterGap_inside, afterGap_dropWhile]
      rfl
    rw [hcontinued _ finish' hz, stream_congr hscan']
  · simp [hstream] at hrest

/-- A NUL starts no token. -/
theorem stream_nul {s : Spot} (hs : s.char = '\x00') (rest : List Spot) :
    (⟨s :: rest, finish, false⟩ : Source).stream =
      ⟨[], .error (.fault (.invalidCharacter 0 s.pos))⟩ := by
  have hgap : afterGap false (s :: rest) = s :: rest := by
    have hblank : Text.isBlank '\x00' = false := by decide
    simp [afterGap, hs, hblank]
  have hlexeme : lexemeAt false s rest =
      (.error (.fault (.invalidCharacter 0 s.pos)), rest) := by
    have hname : startsName '\x00' = false := by decide
    simp [lexemeAt, hs, extensible?, sign?, isDigit, hname, invalid]
  have hscan : (⟨s :: rest, finish, false⟩ : Source).scan =
      (.error (.fault (.invalidCharacter 0 s.pos)), ⟨rest, finish, false⟩) := by
    simp [scan, hgap, hlexeme]
  exact stream_of_error hscan

end Source

/-! ## Texts -/

namespace Text

/-- The runes of a text with a comment behind it. -/
theorem runes_commented (a c : Text) :
    (a ++ ofString " //" ++ c).runes =
      a.runes ++ .char ' ' :: .char '/' :: .char '/' :: c.runes := by
  have hopening : ofString " //" = [0x20, 0x2F, 0x2F] := by decide
  have hslash : String.utf8EncodeChar '/' = [0x2F] := by decide
  rw [List.append_assoc, hopening, List.cons_append, runes_append (by decide),
    runes_ascii (c := ' ') (by decide), List.cons_append, runes_ascii hslash, List.cons_append,
    runes_ascii hslash, List.nil_append]

/-- The characters of a text with a comment behind it. -/
theorem chars_commented (a c : Text) :
    (a ++ ofString " //" ++ c).chars = a.chars ++ ' ' :: '/' :: '/' :: c.chars := by
  unfold chars
  rw [runes_commented, List.map_append]
  rfl

end Text

namespace TokenStream

variable {a c : Text} {e : Token}

/-- A text that is cut into tokens keeps them when a comment follows. -/
theorem ofText_commented (h : (ofText a).final = .ok e) (c : Text) :
    let behind := (Spot.locate (.behind (a ++ .ofString " //").chars) c.runes).dropWhile
      fun s => !Scan.endsComment s.char
    let finish := Position.behind (a ++ .ofString " //" ++ c).chars
    ofText (a ++ .ofString " //" ++ c) =
      ⟨(ofText a).front ++ (⟨behind, finish, false⟩ : Source).stream.front,
        (⟨behind, finish, false⟩ : Source).stream.final⟩ := by
  intro behind finish
  have hplace : ∀ cs : List Char, cs.foldl Position.advance .start = .behind cs :=
    fun cs => Position.foldl_advance_behind [] cs
  have hbody : (((Position.behind a.chars).advance ' ').advance '/').advance '/' =
      .behind (a ++ .ofString " //").chars := by
    have hchars := Text.chars_commented a []
    rw [List.append_nil] at hchars
    rw [hchars, ← hplace, ← hplace, List.foldl_append]
    rfl
  have hspots : Spot.locate .start (a ++ .ofString " //" ++ c).runes =
      Spot.locate .start a.runes ++
        Spot.locate (.behind a.chars) (.char ' ' :: .char '/' :: .char '/' :: c.runes) := by
    rw [Text.runes_commented, Spot.locate_append, ← hplace a.chars]
    rfl
  have hstream := Source.stream_commented h (.behind a.chars) finish c.runes
  unfold ofText Source.ofText
  rw [hspots, hplace, hstream, hbody]

/-- What is in a text without a line break and without a NUL does not end a comment. -/
theorem not_endsComment {c : Text} (hbreak : lineFeed ∉ c) (hnul : 0x00 ∉ c) (pos : Position) :
    ∀ s ∈ Spot.locate pos c.runes, (!Scan.endsComment s.char) = true := by
  intro s hs
  have hrune : s.rune ∈ c.runes := by
    rw [← Spot.map_rune_locate pos c.runes]
    exact List.mem_map_of_mem hs
  have hchar : s.char ∈ c.chars := List.mem_map_of_mem hrune
  have hbreak' : '\n' ∉ c.chars := Text.not_mem_chars (b := lineFeed) (by decide) (by decide) hbreak
  have hnul' : '\x00' ∉ c.chars := Text.not_mem_chars (b := 0x00) (by decide) (by decide) hnul
  rw [Bool.not_eq_true', Scan.endsComment, Bool.or_eq_false_iff, beq_eq_false_iff_ne,
    beq_eq_false_iff_ne]
  exact ⟨fun h => hbreak' (h ▸ hchar), fun h => hnul' (h ▸ hchar)⟩

/-- A comment without a line break and without a NUL reaches to the end of the text. -/
theorem ofText_comment (h : (ofText a).final = .ok e) (hbreak : lineFeed ∉ c) (hnul : 0x00 ∉ c) :
    ofText (a ++ .ofString " //" ++ c) =
      ⟨(ofText a).front, .ok ⟨.endOfInput, "", .behind (a ++ .ofString " //" ++ c).chars⟩⟩ := by
  have hnothing : (Spot.locate (.behind (a ++ .ofString " //").chars) c.runes).dropWhile
      (fun s => !Scan.endsComment s.char) = [] :=
    List.dropWhile_eq_nil_iff.mpr (not_endsComment hbreak hnul _)
  rw [ofText_commented h, hnothing, Source.stream_of_end rfl rfl, List.append_nil]

/-- A comment is over at its first NUL, which is no token. -/
theorem ofText_comment_nul (h : (ofText a).final = .ok e) {body : Text} (hbreak : lineFeed ∉ body)
    (hnul : 0x00 ∉ body) (more : Text) :
    ofText (a ++ .ofString " //" ++ (body ++ 0x00 :: more)) =
      ⟨(ofText a).front, .error (.fault (.invalidCharacter 0
        (.behind (a ++ .ofString " //" ++ body).chars)))⟩ := by
  have hplace : body.chars.foldl Position.advance (.behind (a ++ .ofString " //").chars) =
      .behind (a ++ .ofString " //" ++ body).chars := by
    have hopening := Text.chars_commented a []
    rw [List.append_nil] at hopening
    rw [Position.foldl_advance_behind, hopening, Text.chars_commented]
    simp [Text.chars, Text.runes, Text.runesAfter]
  have hrunes : (body ++ 0x00 :: more).runes = body.runes ++ .char '\x00' :: more.runes := by
    rw [Text.runes_append (by decide), Text.runes_ascii (c := '\x00') (by decide)]
  have hstart : (Spot.locate (.behind (a ++ .ofString " //").chars)
      (body ++ 0x00 :: more).runes).dropWhile (fun s => !Scan.endsComment s.char) =
        Spot.locate (.behind (a ++ .ofString " //" ++ body).chars)
          (.char '\x00' :: more.runes) := by
    rw [hrunes, Spot.locate_append, List.dropWhile_append_of_pos (not_endsComment hbreak hnul _),
      ← hplace]
    rfl
  rw [ofText_commented h, hstart, Spot.locate, Source.stream_nul rfl, List.append_nil]

end TokenStream

/-- A comment behind a text that is cut into tokens leaves these tokens as they are. Whatever else is
in it, a comment without a NUL runs to the end of its line, so that only the end of the input moves.
A comment with a NUL is over at the first one: no token starts there, and the whole text is refused
at that place. -/
theorem comment_runs_up_to_nul {a c : Text} (h : (TokenStream.ofText a).halt? = none)
    (hbreak : lineFeed ∉ c) :
    ∃ tokens finish, (TokenStream.ofText a).toList = tokens ++ [⟨.endOfInput, "", finish⟩] ∧
      (0x00 ∉ c →
        (TokenStream.ofText (a ++ .ofString " //" ++ c)).halt? = none ∧
        (TokenStream.ofText (a ++ .ofString " //" ++ c)).toList =
          tokens ++ [⟨.endOfInput, "", .behind (a ++ .ofString " //" ++ c).chars⟩]) ∧
      ∀ body more, c = body ++ 0x00 :: more → 0x00 ∉ body →
        (TokenStream.ofText (a ++ .ofString " //" ++ c)).halt? =
          some (.fault (.invalidCharacter 0 (.behind (a ++ .ofString " //" ++ body).chars))) ∧
        (TokenStream.ofText (a ++ .ofString " //" ++ c)).toList = tokens := by
  obtain ⟨e, hfinal, he, hlist⟩ := TokenStream.exists_toList h
  refine ⟨(TokenStream.ofText a).front, e.pos, he ▸ hlist, ?_, ?_⟩
  · intro hnul
    rw [TokenStream.ofText_comment hfinal hbreak hnul]
    exact ⟨rfl, rfl⟩
  · intro body more hc hnul
    have hbody : lineFeed ∉ body := fun hmem => hbreak (hc ▸ List.mem_append_left _ hmem)
    rw [hc, TokenStream.ofText_comment_nul hfinal hbody hnul more]
    exact ⟨rfl, rfl⟩

/-- Quotes, further slashes and the start of a UTF-8 unit that breaks off are passed over in a
comment that follows another comment. -/
theorem comment_runs_up_to_nul_quotes :
    (TokenStream.ofText (Text.ofString "f(x) // a")).halt? = none ∧
      lineFeed ∉ Text.ofString "\"b' // c" ++ [0xE2, 0x82] ∧
      ∃ tokens finish, (TokenStream.ofText (Text.ofString "f(x) // a")).toList =
          tokens ++ [⟨.endOfInput, "", finish⟩] ∧
        (TokenStream.ofText (Text.ofString "f(x) // a" ++ .ofString " //" ++
          (Text.ofString "\"b' // c" ++ [0xE2, 0x82]))).halt? = none ∧
        (TokenStream.ofText (Text.ofString "f(x) // a" ++ .ofString " //" ++
          (Text.ofString "\"b' // c" ++ [0xE2, 0x82]))).toList =
            tokens ++ [⟨.endOfInput, "", ⟨0, 22⟩⟩] := by
  have hleft : (TokenStream.ofText (Text.ofString "f(x) // a")).halt? = none := by decide +kernel
  have hbreak : lineFeed ∉ Text.ofString "\"b' // c" ++ [0xE2, 0x82] := by decide +kernel
  have hnul : 0x00 ∉ Text.ofString "\"b' // c" ++ [0xE2, 0x82] := by decide +kernel
  have hfinish : Position.behind (Text.ofString "f(x) // a" ++ Text.ofString " //" ++
      (Text.ofString "\"b' // c" ++ [0xE2, 0x82])).chars = ⟨0, 22⟩ := by decide +kernel
  obtain ⟨tokens, finish, hlist, hwhole, -⟩ := comment_runs_up_to_nul hleft hbreak
  rw [hfinish] at hwhole
  exact ⟨hleft, hbreak, tokens, finish, hlist, hwhole hnul⟩

/-- A text that is cut into tokens is refused once a comment with a NUL follows, although the
comment has no line break in it. -/
theorem nul_ends_a_comment :
    (TokenStream.ofText (Text.ofString "x")).halt? = none ∧ lineFeed ∉ ([0x00] : Text) ∧
      (TokenStream.ofText (Text.ofString "x" ++ .ofString " //" ++ [0x00])).halt? =
        some (.fault (.invalidCharacter 0 ⟨0, 4⟩)) := by
  decide +kernel

end Offside
