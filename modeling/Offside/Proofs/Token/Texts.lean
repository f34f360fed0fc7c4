import Offside.Entry
import Offside.Proofs.Text.Runs
import Offside.Proofs.Token.Extension

/-!
# Texts that are cut and continued

A line feed, like any ASCII byte, starts a rune of its own wherever it stands, so what is known of
sources that are cut or continued holds of texts. The tokens of a text stand at places that go
strictly forward, and no two of them at the same one.
-/

set_option autoImplicit false

namespace Offside

/-! ## Places -/

/-- The place is on an earlier line, or further left on the same line. -/
def Position.Before (p q : Position) : Prop :=
  p.line < q.line ∨ p.line = q.line ∧ p.column < q.column

namespace Position

/-- A place is not in front of itself. -/
theorem Before.ne {p q : Position} (h : p.Before q) : p ≠ q := by
  rintro rfl
  unfold Before at h
  omega

/-- What is in front of an earlier place is in front of a later one. -/
theorem Before.trans {p q s : Position} (h₁ : p.Before q) (h₂ : q.Before s) : p.Before s := by
  unfold Before at *
  omega

/-- Every character leads to a later place. -/
theorem before_advance (p : Position) (c : Char) : p.Before (p.advance c) := by
  unfold Before advance
  split
  all_goals
    dsimp only
    omega

end Position

namespace Spot

/-- The second of two texts is located where the first one ends. -/
theorem locate_append (start : Position) (rs rs' : List Rune) :
    locate start (rs ++ rs') =
      locate start rs ++ locate ((rs.map Rune.toChar).foldl Position.advance start) rs' := by
  induction rs generalizing start with
  | nil => simp [locate]
  | cons r rs ih => simp [locate, ih]

/-- The runes that are located are there. -/
theorem map_rune_locate (start : Position) (rs : List Rune) : (locate start rs).map rune = rs := by
  induction rs generalizing start with
  | nil => simp [locate]
  | cons r rs ih => simp [locate, ih]

/-- The places of runes, and the place behind them, go strictly forward. -/
theorem pairwise_locate (start : Position) (rs : List Rune) :
    ((locate start rs).map pos ++
      [(rs.map Rune.toChar).foldl Position.advance start]).Pairwise Position.Before := by
  have hstart : ∀ (rs : List Rune) (start : Position), ∀ p ∈ (locate start rs).map pos ++
      [(rs.map Rune.toChar).foldl Position.advance start], p = start ∨ start.Before p := by
    intro rs
    induction rs with
    | nil => simp [locate]
    | cons r rs ih =>
      intro start p hp
      simp only [locate, List.map_cons, List.cons_append, List.mem_cons, List.foldl_cons] at hp
      have hnext := start.before_advance r.toChar
      rcases hp with rfl | hp
      · exact .inl rfl
      · rcases ih _ p hp with rfl | hbefore
        · exact .inr hnext
        · exact .inr (hnext.trans hbefore)
  induction rs generalizing start with
  | nil => simp [locate]
  | cons r rs ih =>
    simp only [locate, List.map_cons, List.cons_append, List.foldl_cons]
    refine List.pairwise_cons.mpr ⟨fun p hp => ?_, ih _⟩
    have hnext := start.before_advance r.toChar
    rcases hstart rs _ p hp with rfl | hbefore
    · exact hnext
    · exact hnext.trans hbefore

end Spot

/-- An ASCII byte in front of a text is a rune of its own. -/
theorem Text.runes_ascii {b : UInt8} {c : Char} (h : String.utf8EncodeChar c = [b]) (text : Text) :
    runes (b :: text) = .char c :: text.runes := by
  have hfirst : Rune.first b text = .char c := by
    rw [Rune.first_eq_char_iff, h]
    simp
  show runesAfter 0 (b :: text) = _
  rw [runesAfter, hfirst]
  simp [Rune.width, Rune.bytes, h, runes]

/-- The runes of two texts with a line feed between them. -/
theorem Text.runes_line (a b : Text) :
    (a ++ lineFeed :: b).runes = a.runes ++ .char '\n' :: b.runes := by
  rw [runes_append (by decide), runes_ascii (c := '\n') (by decide)]

/-! ## Scans -/

/-- A token is at the place of its first character. -/
theorem Scan.lexemeAt_pos {s : Spot} {rest : List Spot} {t : Token}
    (h : (lexemeAt false s rest).1 = .ok t) : t.pos = s.pos := by
  simp only [lexemeAt, extensibleSign, plainSign, string, number, word, invalid, lexeme] at h
  repeat' split at h
  all_goals simp at h
  all_goals rw [← h]

/-- To cut out a token never fails because of its kind. -/
theorem Scan.lexemeAt_ne_unexpected (s : Spot) (rest : List Spot) (got : Kind) (kinds : List Kind)
    (reason : String) (pos : Position) :
    (lexemeAt false s rest).1 ≠ .error (.fault (.unexpected got kinds reason pos)) := by
  intro h
  simp only [lexemeAt, extensibleSign, plainSign, string, number, word, invalid, lexeme] at h
  repeat' split at h
  all_goals simp at h

namespace Source

open Scan

/-- The places of the tokens are among those of the source, in this order. -/
theorem places_sublist (s : Source) (hb : s.broken = false) :
    (s.stream.toList.map Token.pos).Sublist (s.rest.map Spot.pos ++ [s.finish]) := by
  fun_induction stream s with
  | case1 s e left h => simp [TokenStream.toList]
  | case2 s t left h hend =>
    have hgap := afterGap_of_end hb h hend
    simp only [scan, hgap, final, hb, Bool.false_eq_true, if_false, Prod.mk.injEq,
      Except.ok.injEq] at h
    simp [TokenStream.toList, ← h.1]
  -- the token is at the first character behind the gap, and all others are behind that
  | case3 s t left h hend hlt more ih =>
    obtain ⟨-, hleft⟩ := scan_gives hb
    rw [h] at hleft
    cases hgap : afterGap false s.rest with
    | nil =>
      simp only [scan, hgap, final, hb, Bool.false_eq_true, if_false, Prod.mk.injEq,
        Except.ok.injEq] at h
      exact absurd (by rw [← h.1]) hend
    | cons first rest =>
      have hsuffix : first :: rest <:+ s.rest := hgap ▸ afterGap_suffix false s.rest
      simp only [scan, hgap, hb, Prod.mk.injEq] at h
      have hpos := lexemeAt_pos h.1
      have hrest : left.rest <:+ rest := by
        rw [← h.2]
        exact lexemeAt_suffix first rest
      have hmore := ih hleft
      have hfinish : left.finish = s.finish := by rw [← h.2]
      have hlist : (TokenStream.toList { more with front := t :: more.front }) =
          t :: more.toList := by
        unfold TokenStream.toList
        cases more.final <;> rfl
      rw [hlist, List.map_cons, hpos]
      refine (List.Sublist.cons_cons first.pos (hmore.trans ?_)).trans
        (List.Sublist.append_right (hsuffix.sublist.map Spot.pos) _)
      rw [hfinish]
      exact List.Sublist.append_right (hrest.sublist.map Spot.pos) _

/-- No stream ends because of the kind of a token. -/
theorem final_ne_unexpected (s : Source) (hb : s.broken = false) (got : Kind) (kinds : List Kind)
    (reason : String) (pos : Position) :
    s.stream.final ≠ .error (.fault (.unexpected got kinds reason pos)) := by
  fun_induction stream s with
  | case1 s e left h =>
    rintro hfinal
    cases hgap : afterGap false s.rest with
    | nil => simp [scan, hgap, final, hb] at h
    | cons first rest =>
      simp only [scan, hgap, hb, Prod.mk.injEq] at h
      exact lexemeAt_ne_unexpected first rest got kinds reason pos (h.1.trans hfinal)
  | case2 s t left h hend => simp
  | case3 s t left h hend hlt more ih =>
    obtain ⟨-, hleft⟩ := scan_gives hb
    rw [h] at hleft
    exact ih hleft

end Source

/-! ## Texts -/

namespace TokenStream

/-- There are line breaks at most, and then the end. -/
structure Blank (s : TokenStream) : Prop where
  front : ∀ t ∈ s.front, t.isBreak = true
  final : ∃ t, s.final = .ok t ∧ t.kind = .endOfInput

/-- The tokens of a text stand at places that go strictly forward. -/
theorem pairwise_ofText (text : Text) :
    ((ofText text).toList.map Token.pos).Pairwise Position.Before := by
  have hplaces := Spot.pairwise_locate .start text.runes
  exact List.Pairwise.sublist (Source.places_sublist (Source.ofText text false) rfl) hplaces

/-- The stream of a text does not end because of the kind of a token. -/
theorem ofText_final_ne (text : Text) (got : Kind) (kinds : List Kind) (reason : String)
    (pos : Position) :
    (ofText text).final ≠ .error (.fault (.unexpected got kinds reason pos)) :=
  Source.final_ne_unexpected _ rfl got kinds reason pos

/-- All characters of a blank line are blanks. -/
theorem isBlank_of_mem_locate {text : Text} (h : text.isBlankLine = true) (start : Position) :
    ∀ z ∈ Spot.locate start text.runes, Text.isBlank z.char = true := by
  intro z hz
  have hrune : z.rune ∈ text.runes := by
    rw [← Spot.map_rune_locate start text.runes]
    exact List.mem_map_of_mem hz
  exact List.all_eq_true.mp h _ (List.mem_map_of_mem hrune)

/-- The stream of a blank line is blank. -/
theorem blank_of_isBlankLine {text : Text} (h : text.isBlankLine = true) (start finish : Position) :
    (⟨Spot.locate start text.runes, finish, false⟩ : Source).stream.Blank := by
  obtain ⟨hfront, hfinal⟩ := Source.stream_blank (isBlank_of_mem_locate h start)
  refine ⟨fun t ht => ?_, _, hfinal, rfl⟩
  simp [Token.isBreak, hfront t ht]

/-- A text that is cut into tokens keeps them when a line follows it. -/
theorem ofText_line {a : Text} {e : Token} (h : (ofText a).final = .ok e) (b : Text) :
    ∃ (u : Token) (more : TokenStream), u.kind = .newline ∧
      ofText (a ++ lineFeed :: b) = ⟨(ofText a).front ++ u :: more.front, more.final⟩ ∧
      (b.isBlankLine = true → more.Blank) := by
  unfold ofText Source.ofText at h ⊢
  simp only [Text.runes_line, Spot.locate_append, Spot.locate]
  rw [Source.stream_continued rfl h]
  exact ⟨_, _, rfl, rfl, fun hb => blank_of_isBlankLine hb _ _⟩

/-- A text that is not made of tokens stays so when a blank line follows it. -/
theorem ofText_unmended {a b : Text} {e : Halt} (hb : b.isBlankLine = true)
    (h : (ofText a).final = .error e) : ∃ e', (ofText (a ++ lineFeed :: b)).final = .error e' := by
  unfold ofText Source.ofText at h ⊢
  simp only [Text.runes_line, Spot.locate_append, Spot.locate]
  apply Source.stream_unmended rfl ?_ h
  intro z hz hquote
  have hblank := isBlank_of_mem_locate hb _ z hz
  rw [hquote] at hblank
  exact absurd hblank (by decide)

/-- A text can be cut behind any of its tokens and continued with pieces. -/
theorem ofText_cut {text : Text} {before : List Token} (h : before <+: (ofText text).front)
    (ps : List Piece) (hps : ∀ p ∈ ps, p.isProper = true) :
    ∃ text' pos finish, ofText text' =
      ⟨before ++ Piece.tokens pos ps, .ok ⟨.endOfInput, "", finish⟩⟩ := by
  obtain ⟨xs, ys, hsplit, hcut⟩ := Source.stream_cut (s := Source.ofText text false) rfl h
  have hrunes : text.runes = xs.map Spot.rune ++ ys.map Spot.rune := by
    rw [← List.map_append, ← hsplit]
    exact (Spot.map_rune_locate .start text.runes).symm
  have hlocate : Spot.locate .start (xs.map Spot.rune) = xs := by
    have hboth := Spot.locate_append .start (xs.map Spot.rune) (ys.map Spot.rune)
    rw [← hrunes] at hboth
    refine (List.append_inj (hboth.symm.trans hsplit) ?_).1
    have hlength := congrArg List.length (Spot.map_rune_locate .start (xs.map Spot.rune))
    simpa using hlength
  have hbytes : Text.runes ((xs.map Spot.rune).flatMap Rune.bytes) = xs.map Spot.rune :=
    Text.runes_bytes_of_isPrefix 0 ⟨_, hrunes.symm⟩
  -- the blank keeps the last token apart from the first piece
  refine ⟨(xs.map Spot.rune).flatMap Rune.bytes ++ 32 :: Text.ofChars (Piece.written ps), ?_⟩
  unfold ofText Source.ofText
  rw [Text.runes_append (by decide), Text.runes_ascii (c := ' ') (by decide), hbytes,
    Text.runes_ofChars, Spot.locate_append, hlocate, hcut _ _ (by simp [Scan.Separated, Spot.locate,
      Spot.char, Rune.toChar])]
  have hblank : ∀ pos finish, (⟨Spot.locate pos (.char ' ' :: (Piece.written ps).map Rune.char),
      finish, false⟩ : Source).stream =
        ⟨Piece.tokens (pos.advance ' ') ps, .ok ⟨.endOfInput, "", finish⟩⟩ := by
    intro pos finish
    rw [← Source.stream_written ps hps]
    exact Source.stream_congr Source.scan_space
  rw [hblank]
  exact ⟨_, _, rfl⟩

end TokenStream

end Offside
