import Offside.Proofs.Token.Lexemes
import Offside.Proofs.Tree.Foresight
import Offside.Proofs.Tree.Mirror

/-!
# Blank lines and comment lines

A line of white space, with or without a comment, has no tokens but its line break. Where it is put
between two lines of a text, the tokens in front of it stay where they are, those behind it move
down by one line, and there is one more line break behind a line break. The grammar makes nothing of
that (`Grammar.mirrors_program`), so the tree or the fault is the same but for the lines.
-/

set_option autoImplicit false

namespace Offside

/-- The place one line further down, if it stands below the given line. -/
def Position.pushed (line : Int) (p : Position) : Position :=
  if p.line ≤ line then p else p.below 1

/-- What came of reading a source, at other places. -/
def Parse.moved (f : Position → Position) : Except Halt Node → Except Halt Node
  | .ok tree => .ok (tree.moved f)
  | .error h => .error (h.moved f)

/-- Spaces, tabs and carriage returns, perhaps with a comment behind them. -/
inductive Text.Idle : Text → Prop
  | nil : Idle []
  | blank {b : UInt8} {t : Text} (hb : b = 0x20 ∨ b = 0x09 ∨ b = 0x0D) (more : Idle t) :
      Idle (b :: t)
  | comment {body : Text} (hbody : ∀ b ∈ body, b ≠ lineFeed ∧ b ≠ 0x00) :
      Idle (0x2F :: 0x2F :: body)

namespace Position

/-- Lines that are pushed down keep their columns. -/
theorem keepsColumns_pushed (line : Int) : KeepsColumns (pushed line) := by
  have hcolumn : ∀ p, (pushed line p).column = p.column := by
    intro p
    unfold pushed
    split <;> rfl
  intro p q
  rw [hcolumn, hcolumn]

end Position

/-! ## Idle lines -/

namespace Text

/-- An idle line is a gap. -/
theorem Idle.gap {t : Text} (h : t.Idle) : Gap [] t.chars := by
  induction h with
  | nil => exact .nil
  | @blank b t hb _ ih =>
    obtain ⟨c, hc, hblank, hbreak⟩ : ∃ c, String.utf8EncodeChar c = [b] ∧
        isBlank c = true ∧ c ≠ '\n' := by
      rcases hb with rfl | rfl | rfl
      · exact ⟨' ', by decide⟩
      · exact ⟨'\t', by decide⟩
      · exact ⟨'\r', by decide⟩
    rw [chars_ascii hc]
    exact .blank hblank hbreak ih
  | @comment body hbody =>
    have hslash : String.utf8EncodeChar '/' = [0x2F] := by decide
    have hbreak : '\n' ∉ body.chars := not_mem_chars (b := lineFeed) (by decide) (by decide)
      fun hmem => (hbody _ hmem).1 rfl
    have hnul : '\x00' ∉ body.chars := not_mem_chars (b := 0x00) (by decide) (by decide)
      fun hmem => (hbody _ hmem).2 rfl
    rw [chars_ascii hslash, chars_ascii hslash]
    refine .comment (fun c hc => ⟨?_, ?_⟩) (.inl rfl)
    · rintro rfl
      exact hbreak hc
    · rintro rfl
      exact hnul hc

/-- An idle line has no line feed in it. -/
theorem Idle.count_lineFeed {t : Text} (h : t.Idle) : t.count lineFeed = 0 := by
  rw [List.count_eq_zero]
  induction h with
  | nil => simp
  | @blank b t hb _ ih =>
    rw [List.mem_cons, not_or]
    refine ⟨?_, ih⟩
    rcases hb with rfl | rfl | rfl <;> decide
  | @comment body hbody =>
    have hrest : lineFeed ∉ body := fun hmem => (hbody _ hmem).1 rfl
    simpa [lineFeed] using hrest

end Text

/-! ## Places in a text -/

/-- A character is on one of the lines from the start of its text on. -/
theorem Spot.line_of_mem_locate {p : Position} {rs : List Rune} {z : Spot}
    (h : z ∈ locate p rs) :
    p.line ≤ z.pos.line ∧ z.pos.line ≤ p.line + (rs.map Rune.toChar).count '\n' := by
  induction rs generalizing p with
  | nil => simp [locate] at h
  | cons r rs ih =>
    rw [locate, List.mem_cons] at h
    rcases h with rfl | h
    · constructor
      · exact Int.le_refl _
      · dsimp only
        omega
    · have hrest := ih h
      rw [List.map_cons, List.count_cons]
      unfold Position.advance at hrest
      by_cases hc : r.toChar = '\n'
      · simp [hc] at hrest ⊢
        omega
      · simp [hc] at hrest ⊢
        omega

namespace TokenStream

/-- The tokens of a text move by what happens to its lines only. -/
theorem ofText_moved_congr {t : Text} {f g : Position → Position}
    (h : ∀ p : Position, 0 ≤ p.line → p.line ≤ t.count lineFeed → f p = g p) :
    (ofText t).moved f = (ofText t).moved g := by
  have hcount : (t.runes.map Rune.toChar).count '\n' = t.count lineFeed :=
    Text.count_chars (b := lineFeed) (by decide) (by decide) t
  have hrest : (Source.ofText t false).rest.map (Spot.moved f) =
      (Source.ofText t false).rest.map (Spot.moved g) := by
    apply List.map_congr_left
    intro z hz
    obtain ⟨hlow, hhigh⟩ := Spot.line_of_mem_locate hz
    rw [hcount] at hhigh
    unfold Spot.moved
    rw [h z.pos hlow (by simpa [Position.start] using hhigh)]
  have hfinish : f (Source.ofText t false).finish = g (Source.ofText t false).finish := by
    have hline : (Source.ofText t false).finish.line = 0 + t.chars.count '\n' :=
      Position.line_foldl_advance .start t.chars
    rw [Text.chars, hcount] at hline
    exact h _ (by omega) (by omega)
  have hsource : (Source.ofText t false).moved f (Spot.moved f) =
      (Source.ofText t false).moved g (Spot.moved g) := by
    unfold Source.moved
    rw [hrest, hfinish]
  unfold ofText
  rw [← Source.stream_moved (Spot.moves_moved f) _ rfl, hsource,
    Source.stream_moved (Spot.moves_moved g) _ rfl]

/-- An idle line has no tokens. -/
theorem ofText_idle {t : Text} (h : t.Idle) :
    ∃ e, ofText t = ⟨[], .ok e⟩ := by
  rw [ofText_eq_written, Source.stream_of_gap h.gap]
  exact ⟨_, rfl⟩

/-- To move places twice is to move them once. -/
theorem moved_moved (f g : Position → Position) (s : TokenStream) :
    (s.moved f).moved g = s.moved (g ∘ f) := by
  obtain ⟨front, final⟩ := s
  have hfront : (front.map (Token.moved f)).map (Token.moved g) =
      front.map (Token.moved (g ∘ f)) := by
    rw [List.map_map]
    rfl
  have hfinal : Scan.moved g (Scan.moved f final) = Scan.moved (g ∘ f) final := by
    cases final with
    | ok t => rfl
    | error h =>
      cases h with
      | fault x => cases x <;> rfl
      | _ => rfl
  simp only [moved, hfront, hfinal]

/-- What stands in a text in front of the line stays where it is. -/
theorem ofText_pushed_above (a : Text) :
    (ofText a).moved (.pushed (a.count lineFeed)) = ofText a := by
  have hstay : (ofText a).moved (.pushed (a.count lineFeed)) = (ofText a).moved id := by
    apply ofText_moved_congr
    intro p _ hline
    unfold Position.pushed
    rw [if_pos hline]
    rfl
  rw [hstay, moved_id]

/-- What stands in a text below the line moves down by one more. -/
theorem ofText_pushed_below (b : Text) (lines : Nat) :
    ((ofText b).moved (.below (lines + 1))).moved (.pushed lines) =
      ((ofText b).moved (.below 1)).moved (.below (lines + 1)) := by
  rw [moved_moved, moved_moved]
  apply ofText_moved_congr
  intro p hline _
  have hlower : ¬ (p.below (lines + 1)).line ≤ lines := by
    show ¬ p.line + (lines + 1) ≤ lines
    omega
  show Position.pushed lines (p.below (lines + 1)) = (p.below 1).below (lines + 1)
  unfold Position.pushed
  rw [if_neg hlower]
  simp only [Position.below, Position.mk.injEq, and_true]
  omega

/-- With an idle line behind a text, what stands below the text moves down by one line, and one more
line break stands in front of it. -/
theorem ofText_idle_between {a c : Text} {e : Token} (ha : (ofText a).final = .ok e) (hc : c.Idle)
    (b : Text) :
    Token.Respaced (.pushed (a.count lineFeed)) (ofText (a ++ lineFeed :: b)).front
        (ofText (a ++ lineFeed :: (c ++ lineFeed :: b))).front ∧
      (ofText (a ++ lineFeed :: (c ++ lineFeed :: b))).final =
        Scan.moved (.pushed (a.count lineFeed)) (ofText (a ++ lineFeed :: b)).final := by
  obtain ⟨finish, hidle⟩ := ofText_idle hc
  have hlower : ofText (c ++ lineFeed :: b) =
      ⟨⟨.newline, "", finish.pos⟩ :: ((ofText b).moved (.below 1)).front,
        ((ofText b).moved (.below 1)).final⟩ := by
    rw [ofText_joined (congrArg final hidle) b, hidle, hc.count_lineFeed]
    rfl
  have habove := ofText_pushed_above a
  have hbelow := ofText_pushed_below b (a.count lineFeed)
  have hbreak : Position.pushed (a.count lineFeed) e.pos = e.pos := by
    have hend : Scan.moved (.pushed (a.count lineFeed)) (ofText a).final = (ofText a).final :=
      congrArg final habove
    rw [ha] at hend
    exact congrArg Token.pos (Except.ok.inj hend)
  have hfront : (ofText a).front.map (Token.moved (.pushed (a.count lineFeed))) =
      (ofText a).front := congrArg front habove
  rw [ofText_joined ha, ofText_joined ha, hlower]
  -- the line break of the idle line stands directly behind the one that ends the text
  constructor
  · have hrest : ((ofText b).moved (.below (a.count lineFeed + 1))).front.map
        (Token.moved (.pushed (a.count lineFeed))) =
          (((ofText b).moved (.below 1)).moved (.below (a.count lineFeed + 1))).front :=
      congrArg front hbelow
    have hline : Token.moved (.pushed (a.count lineFeed)) ⟨.newline, "", e.pos⟩ =
        ⟨.newline, "", e.pos⟩ := by
      unfold Token.moved
      rw [hbreak]
    have hlast : ∀ u ∈ [Token.moved (.below (a.count lineFeed + 1)) ⟨.newline, "", finish.pos⟩],
        u.isBreak = true := by
      intro u hu
      rw [List.mem_singleton.mp hu]
      rfl
    have hspaced := (Token.Respaced.map_moved (.pushed (a.count lineFeed)) (ofText a).front).append
      (.line (t := ⟨.newline, "", e.pos⟩) rfl hlast (.map_moved _
        ((ofText b).moved (.below (a.count lineFeed + 1))).front))
    rw [hfront, hline, hrest] at hspaced
    exact hspaced
  · exact (congrArg final hbelow).symm

end TokenStream

/-- If the start stays where it is, the root does so as well. -/
theorem Parse.movedInside_outcome {f : Position → Position} (hstart : f .start = .start)
    (s : TokenStream) :
    Parse.movedInside f (ofStream s).outcome = Parse.moved f (ofStream s).outcome := by
  have horigin : Token.origin.moved f = Token.origin := by
    unfold Token.moved Token.origin
    rw [hstart]
  unfold ofStream
  cases Grammar.program (fuelFor s.front.length) (.ofStream s) with
  | ok ns left => simp [Parse.movedInside, Node.movedInside, Parse.moved, horigin]
  | error h left => rfl

/-- Sources whose tokens are the same but for places and doubled line breaks have outcomes that are
the same but for places. -/
theorem Parse.outcome_respaced {f : Position → Position} {s s' : TokenStream} (hs : s.Legal)
    (hs' : s'.Legal) (hf : Position.KeepsColumns f) (hstart : f .start = .start)
    (hfront : Token.Respaced f s.front s'.front) (hfinal : s'.final = Scan.moved f s.final) :
    (ofStream s').outcome = Parse.moved f (ofStream s).outcome := by
  have halike : (Reading.ofStream s).Alike (fun _ => True) f (Reading.ofStream s') :=
    ⟨hfront, hfinal, rfl, Reading.lined_everywhere _⟩
  have henough := And.intro (outcome_ne_outOfFuel hs) (outcome_ne_outOfFuel hs')
  rw [outcome_of_alike (hf.on _) halike (.inr henough), movedInside_outcome hstart]

/-- Blank lines and comment lines never matter. Where one is put behind a text that is cut into
tokens, what comes of the whole is the same tree or the same fault, except that what stands below
that text moves down by one line. -/
theorem idle_lines_never_matter {a c : Text} (ha : (TokenStream.ofText a).halt? = none)
    (hc : c.Idle) (b : Text) :
    (Parse.ofText (a ++ lineFeed :: (c ++ lineFeed :: b))).outcome =
      Parse.moved (.pushed (a.count lineFeed)) (Parse.ofText (a ++ lineFeed :: b)).outcome := by
  obtain ⟨e, hfinal, -⟩ := TokenStream.exists_toList ha
  obtain ⟨hfront, hends⟩ := TokenStream.ofText_idle_between hfinal hc b
  have hstart : Position.pushed (a.count lineFeed) .start = .start := by
    unfold Position.pushed
    rw [if_pos]
    show (0 : Int) ≤ a.count lineFeed
    omega
  exact Parse.outcome_respaced (TokenStream.ofText_legal _) (TokenStream.ofText_legal _)
    (Position.keepsColumns_pushed _) hstart hfront hends

/-- A comment line that breaks off in the middle of a UTF-8 unit keeps no `else` from its
conditional, and the fault in the last line is found one line further down. -/
theorem idle_lines_never_matter_else :
    (TokenStream.ofText (Text.ofString "if x:\n  1")).halt? = none ∧
      Text.Idle [0x09, 0x2F, 0x2F, 0x20, 0xC3] ∧
      (Parse.ofText (Text.ofString "if x:\n  1" ++ lineFeed ::
        Text.ofString "else:\n  2 3")).outcome =
          .error (.fault (.unexpected .integer [.newline] "" ⟨3, 4⟩)) ∧
      (Parse.ofText (Text.ofString "if x:\n  1" ++ lineFeed :: ([0x09, 0x2F, 0x2F, 0x20, 0xC3] ++
        lineFeed :: Text.ofString "else:\n  2 3"))).outcome =
          .error (.fault (.unexpected .integer [.newline] "" ⟨4, 4⟩)) := by
  have htokens : (TokenStream.ofText (Text.ofString "if x:\n  1")).halt? = none := by
    decide +kernel
  have hidle : Text.Idle [0x09, 0x2F, 0x2F, 0x20, 0xC3] :=
    .blank (by decide) (.comment (by simp [lineFeed]))
  have hfault : (Parse.ofText (Text.ofString "if x:\n  1" ++ lineFeed ::
      Text.ofString "else:\n  2 3")).outcome =
        .error (.fault (.unexpected .integer [.newline] "" ⟨3, 4⟩)) :=
    Parse.outcome_eq_error_iff_stop?.mpr (by decide +kernel)
  have hcount : (Text.ofString "if x:\n  1").count lineFeed = 1 := by decide +kernel
  refine ⟨htokens, hidle, hfault, ?_⟩
  rw [idle_lines_never_matter htokens hidle, hfault, hcount]
  rfl

end Offside
