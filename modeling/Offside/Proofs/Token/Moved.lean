import Offside.Proofs.Token.Texts

/-!
# Tokens of a source that stands elsewhere

A scan looks at the characters of a source and copies their places. So a source that is read as the
same characters at other places has the same tokens at those places, and stops for the same reason
(`Source.stream_moved`). A text behind a line break is such a source: it stands so many lines further
down and in the same columns, and the tokens of the whole are those of the text in front of the line
break, the line break, and those of the text behind it (`tokens_of_joined_texts`).
-/

set_option autoImplicit false

namespace Offside

/-! ## Places elsewhere -/

/-- The place so many lines further down. -/
def Position.below (lines : Int) (p : Position) : Position := ⟨p.line + lines, p.column⟩

/-- The token at another place. -/
def Token.moved (f : Position → Position) (t : Token) : Token := { t with pos := f t.pos }

/-- The fault at another place, if it has one. -/
def Fault.moved (f : Position → Position) : Fault → Fault
  | unexpected got expected reason pos => unexpected got expected reason (f pos)
  | invalidCharacter code pos => invalidCharacter code (f pos)
  | unterminatedString pos => unterminatedString (f pos)
  | duplicateDeclaration name => duplicateDeclaration name
  | undeclaredVariable name => undeclaredVariable name
  | operandKinds operator left right pos => operandKinds operator left right (f pos)
  | missingArguments name wanted given pos => missingArguments name wanted given (f pos)
  | notCallable name kind pos => notCallable name kind (f pos)
  | divisionByZero pos => divisionByZero (f pos)
  | tooDeep name limit pos => tooDeep name limit (f pos)

/-- The stop at another place, if it has one. -/
def Halt.moved (f : Position → Position) : Halt → Halt
  | fault x => fault (x.moved f)
  | h => h

/-- What a scan gives, at another place. -/
def Scan.moved (f : Position → Position) : Except Halt Token → Except Halt Token
  | .ok t => .ok (t.moved f)
  | .error h => .error (h.moved f)

/-- What a lexeme gives, at another place, with the spots left over. -/
def Scan.movedLexeme (f : Position → Position) (g : Spot → Spot) (l : Lexeme) : Lexeme :=
  (moved f l.1, l.2.map g)

/-- The tokens of a source that stands elsewhere. -/
def TokenStream.moved (f : Position → Position) (s : TokenStream) : TokenStream :=
  ⟨s.front.map (Token.moved f), Scan.moved f s.final⟩

/-- Spots go over into spots that are read as the same characters at other places. -/
structure Spot.Moves (f : Position → Position) (g : Spot → Spot) : Prop where
  char : ∀ s, (g s).char = s.char
  pos : ∀ s, (g s).pos = f s.pos

/-! ## Scans -/

namespace Scan

variable {f : Position → Position} {g : Spot → Spot} (hg : Spot.Moves f g)
include hg

/-- What a source starts with does not depend on places. -/
theorem startsWith_moved (c : Char) (spots : List Spot) :
    startsWith c (spots.map g) = startsWith c spots := by
  cases spots with
  | nil => rfl
  | cons s rest => simp [startsWith, hg.char]

/-- Gaps do not depend on places. -/
theorem afterGap_moved (inComment : Bool) (spots : List Spot) :
    afterGap inComment (spots.map g) = (afterGap inComment spots).map g := by
  induction spots generalizing inComment with
  | nil => cases inComment <;> rfl
  | cons s rest ih =>
    cases inComment with
    | true =>
      simp only [List.map_cons, afterGap, hg.char]
      split
      · rfl
      · exact ih true
    | false =>
      simp only [List.map_cons, afterGap, hg.char, startsWith_moved hg]
      split
      · exact ih true
      · split
        · exact ih false
        · rfl

/-- Where a number ends does not depend on places. -/
theorem numberTail_moved (hasPoint : Bool) (spots : List Spot) :
    numberTail false hasPoint (spots.map g) =
      { numberTail false hasPoint spots with
        rest := (numberTail false hasPoint spots).rest.map g } := by
  induction spots generalizing hasPoint with
  | nil => rfl
  | cons s rest ih =>
    have hhead : ((rest.map g).head?.any fun d => isDigit d.char) =
        rest.head?.any fun d => isDigit d.char := by
      cases rest <;> simp [hg.char]
    simp only [List.map_cons, numberTail, Bool.false_and, Bool.false_eq_true, if_false, hg.char,
      hhead]
    split
    · rw [ih]
    · split
      · rw [ih]
      · rfl

/-- Where a string ends does not depend on places. -/
theorem stringTail_moved (spots : List Spot) :
    stringTail false (spots.map g) =
      { stringTail false spots with rest := (stringTail false spots).rest.map g } := by
  fun_induction stringTail false spots with
  | case1 => rfl
  | case2 s rest hbreak =>
    rw [List.map_cons, stringTail.eq_def]
    simp [hg.char, hbreak]
  | case3 s rest hbreak hquote =>
    rw [List.map_cons, stringTail.eq_def]
    simp [hg.char, hbreak, hquote]
  | case4 s hbreak hquote hslash =>
    rw [List.map_cons, List.map_nil, stringTail.eq_def]
    simp [hg.char, hbreak, hquote, hslash]
  | case5 s hbreak hquote hslash e rest tail ih =>
    rw [List.map_cons, List.map_cons, stringTail.eq_def]
    simp [hg.char, hbreak, hquote, hslash, ih, tail]
  | case6 s rest hbreak hquote hslash tail ih =>
    rw [List.map_cons, stringTail.eq_def]
    simp [hg.char, hbreak, hquote, hslash, ih, tail]

/-- A token is found at the place of its first character. -/
theorem lexeme_moved (kind : Kind) (chars : List Char) (s : Spot) (rest : List Spot) :
    lexeme kind chars (g s).pos (rest.map g) = movedLexeme f g (lexeme kind chars s.pos rest) := by
  simp [lexeme, movedLexeme, moved, Token.moved, hg.pos]

/-- An invalid character is reported at its own place. -/
theorem invalid_moved (s : Spot) (rest : List Spot) :
    invalid (g s) (rest.map g) = movedLexeme f g (invalid s rest) := by
  simp [invalid, movedLexeme, moved, Halt.moved, Fault.moved, hg.pos, hg.char]

/-- A sign that may be extended is found at the place of its first character. -/
theorem extensibleSign_moved (e : Extensible) (s : Spot) (rest : List Spot) :
    extensibleSign false e (g s) (rest.map g) = movedLexeme f g (extensibleSign false e s rest) := by
  unfold extensibleSign
  simp only [Bool.false_and, Bool.false_eq_true, if_false, startsWith_moved hg, hg.char]
  split
  · rw [← List.map_tail]
    exact lexeme_moved hg _ _ _ _
  · split
    · exact lexeme_moved hg _ _ _ _
    · exact invalid_moved hg _ _

/-- A sign is found at its own place. -/
theorem plainSign_moved (kind : Kind) (s : Spot) (rest : List Spot) :
    plainSign false kind (g s) (rest.map g) = movedLexeme f g (plainSign false kind s rest) := by
  unfold plainSign
  simp only [Bool.and_false, Bool.false_and, Bool.false_eq_true, if_false, hg.char]
  exact lexeme_moved hg _ _ _ _

/-- A string is found, or reported as open, at the place of its first quote. -/
theorem string_moved (s : Spot) (rest : List Spot) :
    string false (g s) (rest.map g) = movedLexeme f g (string false s rest) := by
  unfold string
  rw [stringTail_moved hg]
  dsimp only
  split
  · exact lexeme_moved hg _ _ _ _
  · simp [movedLexeme, moved, Halt.moved, Fault.moved, hg.pos]
  · rfl

/-- A number is found at the place of its first digit. -/
theorem number_moved (s : Spot) (rest : List Spot) :
    number false (g s) (rest.map g) = movedLexeme f g (number false s rest) := by
  unfold number
  simp only [numberTail_moved hg, numberTail_not_refused, Bool.false_eq_true, if_false, hg.char]
  exact lexeme_moved hg _ _ _ _

/-- A word is found at the place of its first character. -/
theorem word_moved (s : Spot) (rest : List Spot) :
    word false (g s) (rest.map g) = movedLexeme f g (word false s rest) := by
  have hname : (fun r : Spot => continuesName r.char) ∘ g = fun r => continuesName r.char := by
    funext r
    simp [hg.char]
  have hchars : Spot.char ∘ g = Spot.char := funext hg.char
  unfold word
  simp only [Bool.false_and, Bool.false_eq_true, if_false, List.takeWhile_map, List.dropWhile_map,
    hname, List.map_map, hchars, hg.char]
  exact lexeme_moved hg _ _ _ _

/-- What starts with a character is found at the place of that character. -/
theorem lexemeAt_moved (s : Spot) (rest : List Spot) :
    lexemeAt false (g s) (rest.map g) = movedLexeme f g (lexemeAt false s rest) := by
  unfold lexemeAt
  simp only [hg.char]
  split
  · exact lexeme_moved hg _ _ _ _
  · split
    · exact extensibleSign_moved hg _ _ _
    · exact plainSign_moved hg _ _ _
    · split
      · exact string_moved hg _ _
      · split
        · exact number_moved hg _ _
        · split
          · exact word_moved hg _ _
          · exact invalid_moved hg _ _

end Scan

namespace Source

open Scan

variable {f : Position → Position} {g : Spot → Spot}

/-- The source elsewhere. -/
def moved (f : Position → Position) (g : Spot → Spot) (s : Source) : Source :=
  ⟨s.rest.map g, f s.finish, s.broken⟩

/-- A scan gives the same token at other places. -/
theorem scan_moved (hg : Spot.Moves f g) {s : Source} (hb : s.broken = false) :
    (s.moved f g).scan = (Scan.moved f s.scan.1, s.scan.2.moved f g) := by
  unfold scan moved
  dsimp only
  rw [afterGap_moved hg]
  cases hgap : afterGap false s.rest with
  | nil => simp [final, hb, Scan.moved, Token.moved]
  | cons first rest =>
    simp only [List.map_cons, hb, lexemeAt_moved hg, movedLexeme]

/-- A source elsewhere has its tokens there, and stops there if it does. -/
theorem stream_moved (hg : Spot.Moves f g) (s : Source) (hb : s.broken = false) :
    (s.moved f g).stream = s.stream.moved f := by
  fun_induction stream s with
  | case1 s e left h =>
    have hscan := scan_moved hg hb
    rw [h] at hscan
    rw [stream_of_error hscan]
    rfl
  | case2 s t left h hend =>
    have hscan := scan_moved hg hb
    rw [h] at hscan
    rw [stream_of_end hscan hend]
    rfl
  | case3 s t left h hend hlt more ih =>
    have hscan := scan_moved hg hb
    obtain ⟨-, hleft⟩ := scan_gives hb
    rw [h] at hscan hleft
    rw [stream_of_token hscan hend, ih hleft]
    rfl

/-- A source that is not broken ends behind its last rune. -/
theorem stream_final {s : Source} (hb : s.broken = false) {e : Token}
    (h : s.stream.final = .ok e) : e = ⟨.endOfInput, "", s.finish⟩ := by
  fun_induction stream s with
  | case1 s x left hscan => simp at h
  | case2 s t left hscan hend =>
    have hgap := afterGap_of_end hb hscan hend
    simp only [scan, hgap, final, hb, Bool.false_eq_true, if_false, Prod.mk.injEq] at hscan
    exact (Except.ok.inj (hscan.1.trans h)).symm
  | case3 s t left hscan hend hlt more ih =>
    obtain ⟨taken, rest, -, hleft⟩ := scan_left s hb
    rw [hscan] at hleft
    dsimp only at hleft
    subst hleft
    exact ih rfl h

end Source

/-! ## Lines further down -/

namespace Position

/-- To go forward further down is to go forward and then down. -/
theorem advance_below (lines : Int) (p : Position) (c : Char) :
    (p.below lines).advance c = (p.advance c).below lines := by
  unfold advance below
  split
  · simp only [mk.injEq, and_true]
    omega
  · rfl

/-- To go forward over a text further down is to go forward over it and then down. -/
theorem foldl_advance_below (lines : Int) (p : Position) (cs : List Char) :
    cs.foldl advance (p.below lines) = (cs.foldl advance p).below lines := by
  induction cs generalizing p with
  | nil => rfl
  | cons c cs ih => rw [List.foldl_cons, advance_below, ih, List.foldl_cons]

/-- Every line break leads one line down. -/
theorem line_foldl_advance (p : Position) (cs : List Char) :
    (cs.foldl advance p).line = p.line + cs.count '\n' := by
  induction cs generalizing p with
  | nil => simp
  | cons c cs ih =>
    rw [List.foldl_cons, ih, List.count_cons]
    unfold advance
    by_cases hc : c = '\n'
    · simp [hc]
      omega
    · simp [hc]

end Position

/-- The spot at another place. -/
def Spot.moved (f : Position → Position) (s : Spot) : Spot := ⟨s.rune, f s.pos⟩

/-- Spots keep their characters when they are moved. -/
theorem Spot.moves_moved (f : Position → Position) : Spot.Moves f (Spot.moved f) :=
  ⟨fun _ => rfl, fun _ => rfl⟩

/-- Runes that start further down are all further down. -/
theorem Spot.locate_below (lines : Int) (p : Position) (rs : List Rune) :
    locate (p.below lines) rs = (locate p rs).map (moved (Position.below lines)) := by
  induction rs generalizing p with
  | nil => rfl
  | cons r rs ih =>
    rw [locate, locate, List.map_cons, ← ih, Position.advance_below]
    rfl

/-! ## Texts -/

namespace Text

section

variable {b : UInt8} {c : Char} (hb : b < 0x80) (hc : String.utf8EncodeChar c = [b])
include hc

/-- An ASCII byte is never stray. -/
theorem stray_not_mem_runes (t : Text) : Rune.stray b ∉ t.runes := by
  suffices h : ∀ skip, Rune.stray b ∉ runesAfter skip t from h 0
  intro skip
  fun_induction runesAfter skip t with
  | case1 => simp
  | case2 skip a rest ih => exact ih
  | case3 a rest r ih =>
    rw [List.mem_cons, not_or]
    refine ⟨fun hstray => ?_, ih⟩
    -- the byte would be read as its character
    have hfirst : Rune.first a rest = .stray b := hstray.symm
    obtain rfl := Rune.first_eq_stray hfirst
    have hunit : String.utf8EncodeChar c <+: b :: rest := by simp [hc]
    rw [Rune.first_eq_char_iff.mpr hunit] at hfirst
    contradiction

include hb

/-- A byte that spells a character alone is in no spelling of another one. -/
theorem not_mem_unit {d : Char} (hd : d ≠ c) : b ∉ String.utf8EncodeChar d := by
  intro hmem
  obtain ⟨lead, rest, hunit, -, -⟩ := Rune.announced_and_codePoint d
  rw [hunit, List.mem_cons] at hmem
  rcases hmem with rfl | hrest
  · have hfirst : Rune.first b rest = .char d := Rune.first_eq_char_iff.mpr (by simp [hunit])
    have hfirst' : Rune.first b rest = .char c := Rune.first_eq_char_iff.mpr (by simp [hc])
    rw [hfirst] at hfirst'
    exact hd (Rune.char.inj hfirst')
  · exact absurd hb (UInt8.not_lt.mpr (Rune.le_of_mem_unit hunit hrest))

/-- A rune has an ASCII byte in it only if it is that character. -/
theorem count_bytes {r : Rune} (hr : r ≠ .stray b) :
    r.bytes.count b = if r.toChar = c then 1 else 0 := by
  cases r with
  | char d =>
    by_cases hd : d = c
    · simp [Rune.bytes, Rune.toChar, hd, hc]
    · simpa [Rune.bytes, Rune.toChar, hd, List.count_eq_zero] using not_mem_unit hb hc hd
  | stray a =>
    have hother : Rune.replacement ≠ c := by
      rintro rfl
      have hlong : (String.utf8EncodeChar Rune.replacement).length = 3 := by decide
      simp [hc] at hlong
    have ha : a ≠ b := fun h => hr (h ▸ rfl)
    simp [Rune.bytes, Rune.toChar, hother, ha]

/-- The characters of a text that are spelled by one byte are as many as the bytes. -/
theorem count_chars (t : Text) : t.chars.count c = t.count b := by
  have hrunes : ∀ rs : List Rune, .stray b ∉ rs →
      (rs.map Rune.toChar).count c = (rs.flatMap Rune.bytes).count b := by
    intro rs hrs
    induction rs with
    | nil => rfl
    | cons r rs ih =>
      rw [List.mem_cons, not_or] at hrs
      rw [List.map_cons, List.flatMap_cons, List.count_cons, List.count_append, ih hrs.2,
        count_bytes hb hc (Ne.symm hrs.1), Nat.add_comm]
      simp
  have hbytes : t.runes.flatMap Rune.bytes = t := bytes_runesAfter 0 t
  unfold chars
  rw [hrunes _ (stray_not_mem_runes hc t), hbytes]

/-- A text without an ASCII byte does not have its character. -/
theorem not_mem_chars {t : Text} (h : b ∉ t) : c ∉ t.chars := by
  rw [← List.count_eq_zero, count_chars hb hc, List.count_eq_zero]
  exact h

end

/-- An ASCII byte in front of a text is its first character. -/
theorem chars_ascii {b : UInt8} {c : Char} (h : String.utf8EncodeChar c = [b]) (t : Text) :
    chars (b :: t) = c :: t.chars := by
  unfold chars
  rw [runes_ascii h]
  rfl

end Text

namespace TokenStream

/-- The tokens of a text that goes on with a further text behind a line break. -/
theorem ofText_joined {a : Text} {e : Token} (h : (ofText a).final = .ok e) (b : Text) :
    ofText (a ++ lineFeed :: b) =
      ⟨(ofText a).front ++ ⟨.newline, "", e.pos⟩ ::
          ((ofText b).moved (.below (a.count lineFeed + 1))).front,
        ((ofText b).moved (.below (a.count lineFeed + 1))).final⟩ := by
  have hend : e.pos = a.chars.foldl Position.advance .start := by
    rw [Source.stream_final rfl h]
    rfl
  have hplace : e.pos.advance '\n' = Position.start.below (a.count lineFeed + 1) := by
    have hline := Position.line_foldl_advance .start a.chars
    rw [← hend, Text.count_chars (b := lineFeed) (by decide) (by decide)] at hline
    simp only [Position.advance, Position.below, Position.start, if_true, Position.mk.injEq,
      and_true] at hline ⊢
    omega
  have hbehind : (⟨Spot.locate (e.pos.advance '\n') b.runes,
      b.chars.foldl Position.advance (e.pos.advance '\n'), false⟩ : Source).stream =
        (ofText b).moved (.below (a.count lineFeed + 1)) := by
    rw [hplace, Spot.locate_below, Position.foldl_advance_below]
    exact Source.stream_moved (Spot.moves_moved _) (Source.ofText b false) rfl
  have hfinish : (a ++ lineFeed :: b).chars.foldl Position.advance .start =
      b.chars.foldl Position.advance (e.pos.advance '\n') := by
    rw [hend]
    simp [Text.chars, Text.runes_line, Rune.toChar]
  rw [← hbehind]
  unfold ofText Source.ofText at h ⊢
  rw [hfinish, Text.runes_line, Spot.locate_append, Spot.locate, Source.stream_continued rfl h, hend]
  rfl

/-- A text that was cut into tokens ends with the end of the source. -/
theorem exists_toList {a : Text} (h : (ofText a).halt? = none) :
    ∃ e, (ofText a).final = .ok e ∧ e = ⟨.endOfInput, "", e.pos⟩ ∧
      (ofText a).toList = (ofText a).front ++ [e] := by
  unfold halt? toList at *
  cases hfinal : (ofText a).final with
  | error x => simp [hfinal] at h
  | ok e =>
    have he := Source.stream_final rfl hfinal
    exact ⟨e, rfl, by rw [he], rfl⟩

end TokenStream

/-- The tokens of two texts with a line break between them: those of the first text, the line break
where the first text ended, and those of the second text, which stand as many lines further down as
there are line breaks before them. If the second text stops, the whole stops for the same reason. -/
theorem tokens_of_joined_texts {a : Text} (h : (TokenStream.ofText a).halt? = none) (b : Text) :
    ∃ tokens finish, (TokenStream.ofText a).toList = tokens ++ [⟨.endOfInput, "", finish⟩] ∧
      (TokenStream.ofText (a ++ lineFeed :: b)).toList = tokens ++ ⟨.newline, "", finish⟩ ::
        (TokenStream.ofText b).toList.map (Token.moved (.below (a.count lineFeed + 1))) ∧
      (TokenStream.ofText (a ++ lineFeed :: b)).halt? =
        (TokenStream.ofText b).halt?.map (Halt.moved (.below (a.count lineFeed + 1))) := by
  obtain ⟨e, hfinal, he, hlist⟩ := TokenStream.exists_toList h
  refine ⟨(TokenStream.ofText a).front, e.pos, he ▸ hlist, ?_⟩
  rw [TokenStream.ofText_joined hfinal b]
  unfold TokenStream.toList TokenStream.halt? TokenStream.moved
  cases (TokenStream.ofText b).final with
  | ok t => simp [Scan.moved]
  | error x => simp [Scan.moved]

/-- A comment that breaks off in the middle of a UTF-8 unit ends at the line break, and a string that
is not closed is found two lines further down. -/
theorem tokens_of_joined_texts_open_string :
    (TokenStream.ofText (Text.ofString "f(x,\n  1 // " ++ [0xC3])).halt? = none ∧
      (TokenStream.ofText (Text.ofString "y \"open")).halt? =
        some (.fault (.unterminatedString ⟨0, 2⟩)) ∧
      ∃ tokens finish, (TokenStream.ofText (Text.ofString "f(x,\n  1 // " ++ [0xC3])).toList =
          tokens ++ [⟨.endOfInput, "", finish⟩] ∧
        (TokenStream.ofText (Text.ofString "f(x,\n  1 // " ++ [0xC3] ++ lineFeed ::
          Text.ofString "y \"open")).toList = tokens ++
            [⟨.newline, "", finish⟩, ⟨.identifier, "y", ⟨2, 0⟩⟩] ∧
        (TokenStream.ofText (Text.ofString "f(x,\n  1 // " ++ [0xC3] ++ lineFeed ::
          Text.ofString "y \"open")).halt? = some (.fault (.unterminatedString ⟨2, 2⟩)) := by
  have hleft : (TokenStream.ofText (Text.ofString "f(x,\n  1 // " ++ [0xC3])).halt? = none := by
    decide +kernel
  have hright : (TokenStream.ofText (Text.ofString "y \"open")).halt? =
      some (.fault (.unterminatedString ⟨0, 2⟩)) := by decide +kernel
  have htokens : (TokenStream.ofText (Text.ofString "y \"open")).toList =
      [⟨.identifier, "y", ⟨0, 0⟩⟩] := by decide +kernel
  have hcount : (Text.ofString "f(x,\n  1 // " ++ [0xC3]).count lineFeed = 1 := by decide +kernel
  obtain ⟨tokens, finish, hlist, hjoined, hhalt⟩ :=
    tokens_of_joined_texts hleft (Text.ofString "y \"open")
  rw [hcount] at hjoined hhalt
  rw [htokens] at hjoined
  rw [hright] at hhalt
  exact ⟨hleft, hright, tokens, finish, hlist, hjoined, hhalt⟩

end Offside
