import Offside.Proofs.Token.Moved
import Offside.Proofs.Token.Spelled

/-!
# Texts as gaps and lexemes

A text is cut into tokens exactly if its characters are gaps and lexemes in turn: a gap is white
space, perhaps with a comment at its end; a lexeme spells its token and is as long as it can be; and
each token stands where its lexeme starts, counted in line breaks and in characters behind the last
of them (`Cut`). The scans take the gaps and lexemes of such a text one by one (`Source.scan_gap`,
`Source.scan_spelled`), and every scan that gives a token has found a gap and a lexeme
(`Source.lexeme_of_scan`), so nothing of the text is lost and nothing else is made a token
(`tokens_are_the_lexemes`).
-/

set_option autoImplicit false

namespace Offside

/-! ## Gaps, lexemes and places -/

/-- Digits, a point and digits. -/
def Numeral.isPointed (cs : List Char) : Bool :=
  match splitAtFirst (· == '.') cs with
  | (whole, some fraction) => isWhole whole && isWhole fraction
  | (_, none) => false

/-- Whether a token of the kind can have the value. -/
def Kind.admits (k : Kind) (value : String) : Bool :=
  match k with
  | newline => value == ""
  | string => true
  | identifier => isName value
  | boolean => value == "true" || value == "false"
  | integer => Numeral.isWhole value.toList
  | float => Numeral.isPointed value.toList
  | k => (reserved ++ signs).contains k && value == k.spelling

/-- White space other than line breaks, perhaps with a comment that reaches up to a line break or to
the end of the text. -/
inductive Gap (after : List Char) : List Char → Prop
  | nil : Gap after []
  | blank {c : Char} {gap : List Char} (hblank : Text.isBlank c = true) (hbreak : c ≠ '\n')
      (more : Gap after gap) : Gap after (c :: gap)
  | comment {body : List Char} (hbody : ∀ c ∈ body, c ≠ '\n' ∧ c ≠ '\x00')
      (hafter : after = [] ∨ after.head? = some '\n') : Gap after ('/' :: '/' :: body)

/-- The characters spell a token of the kind with the value. -/
def Kind.Spells (k : Kind) (value : String) (lexeme : List Char) : Prop :=
  match k with
  | newline => lexeme = ['\n']
  | string => ∃ body, Denotes body value.toList ∧ lexeme = '"' :: (body ++ ['"'])
  | _ => lexeme = value.toList

/-- The place behind the characters: the number of line breaks among them, and the number of
characters behind the last of these. -/
def Position.behind (before : List Char) : Position :=
  ⟨before.count '\n', (before.reverse.takeWhile (· != '\n')).length⟩

/-- Behind the characters that were read before, the rest of a text is cut into tokens. -/
inductive Cut : (before rest : List Char) → List Token → Prop
  | finish {before gap : List Char} (hgap : Gap [] gap) :
      Cut before gap [⟨.endOfInput, "", .behind (before ++ gap)⟩]
  | token {before gap lexeme rest : List Char} {kind : Kind} {value : String} {tokens : List Token}
      (hgap : Gap (lexeme ++ rest) gap) (hvalue : kind.admits value = true)
      (hspells : kind.Spells value lexeme) (hlongest : kind.goesOn rest = false)
      (more : Cut (before ++ gap ++ lexeme) rest tokens) :
      Cut before (gap ++ (lexeme ++ rest)) (⟨kind, value, .behind (before ++ gap)⟩ :: tokens)

namespace Position

/-- The place behind a text goes forward with each further character. -/
theorem advance_behind (before : List Char) (c : Char) :
    (behind before).advance c = behind (before ++ [c]) := by
  by_cases hc : c = '\n'
  · simp [advance, behind, hc]
  · simp [advance, behind, hc]

/-- The place behind a text goes forward with all further characters. -/
theorem foldl_advance_behind (before cs : List Char) :
    cs.foldl advance (behind before) = behind (before ++ cs) := by
  induction cs generalizing before with
  | nil => simp
  | cons c cs ih =>
    rw [List.foldl_cons, advance_behind, ih, List.append_assoc, List.singleton_append]

end Position

/-! ## Characters in place of runes -/

/-- The spot with the character that is read there. -/
def Spot.legible (s : Spot) : Spot := ⟨.char s.char, s.pos⟩

/-- Runes and the characters they stand for are at the same places. -/
theorem Spot.map_legible_locate (pos : Position) (rs : List Rune) :
    (locate pos rs).map legible = written pos (rs.map Rune.toChar) := by
  induction rs generalizing pos with
  | nil => rfl
  | cons r rs ih =>
    rw [locate, List.map_cons, List.map_cons, written_cons, ih]
    rfl

/-- A stream whose places stay where they are is the same stream. -/
theorem TokenStream.moved_id (s : TokenStream) : s.moved id = s := by
  obtain ⟨front, final⟩ := s
  have hfront : front.map (Token.moved id) = front := List.map_id front
  have hfinal : Scan.moved id final = final := by
    cases final with
    | ok t => rfl
    | error h =>
      cases h with
      | fault x => cases x <;> rfl
      | _ => rfl
  simp only [moved, hfront, hfinal]

/-- The tokens of a text are those of its characters. -/
theorem TokenStream.ofText_eq_written (text : Text) :
    ofText text = (Source.written (.behind text.chars) (.behind []) text.chars).stream := by
  have hmoves : Spot.Moves id Spot.legible := ⟨fun _ => rfl, fun _ => rfl⟩
  have hstream := Source.stream_moved hmoves (Source.ofText text false) rfl
  have hfinish : text.chars.foldl Position.advance .start = .behind text.chars :=
    Position.foldl_advance_behind [] text.chars
  rw [TokenStream.moved_id] at hstream
  rw [ofText, ← hstream]
  unfold Source.moved Source.ofText Source.written
  rw [Spot.map_legible_locate, hfinish]
  rfl

/-! ## Gaps and lexemes are read -/

namespace Scan

variable {pos : Position} {c : Char} {cs more : List Char}

/-- A blank in front is a part of the gap. -/
theorem afterGap_blank (hblank : Text.isBlank c = true) (hbreak : c ≠ '\n') :
    afterGap false (Spot.written pos (c :: cs)) =
      afterGap false (Spot.written (pos.advance c) cs) := by
  have hchar : (⟨.char c, pos⟩ : Spot).char = c := rfl
  have hslash : c ≠ '/' := by
    rintro rfl
    exact absurd hblank (by decide)
  rw [Spot.written_cons, afterGap]
  simp only [hchar, hblank, beq_eq_false_iff_ne.mpr hslash, bne_iff_ne.mpr hbreak, Bool.false_and,
    Bool.and_true, Bool.false_eq_true, if_false, if_true]

/-- A comment is left at the first character that ends comments. -/
theorem afterGap_comment (hcs : ∀ c ∈ cs, endsComment c = false)
    (hmore : ∀ c ∈ more.head?, endsComment c = true) :
    afterGap true (Spot.written pos (cs ++ more)) =
      Spot.written (cs.foldl Position.advance pos) more := by
  induction cs generalizing pos with
  | nil =>
    cases more with
    | nil => rfl
    | cons d more =>
      have hchar : (⟨.char d, pos⟩ : Spot).char = d := rfl
      have hd : endsComment d = true := hmore d rfl
      rw [List.nil_append, Spot.written_cons, afterGap, hchar, if_pos hd]
      rfl
  | cons d cs ih =>
    have hchar : (⟨.char d, pos⟩ : Spot).char = d := rfl
    have hd : endsComment d = false := hcs d List.mem_cons_self
    rw [List.cons_append, Spot.written_cons, afterGap, hchar, if_neg (ne_true_of_eq_false hd),
      ih fun c hc => hcs c (List.mem_cons_of_mem d hc)]
    rfl

/-- Two slashes start a comment. -/
theorem afterGap_slashes :
    afterGap false (Spot.written pos ('/' :: '/' :: cs)) =
      afterGap true (Spot.written ((pos.advance '/').advance '/') cs) := by
  simp only [Spot.written_cons, afterGap]
  rfl

/-- Nothing is skipped in front of a line break or the end of the text. -/
theorem afterGap_of_head (hmore : more = [] ∨ more.head? = some '\n') :
    afterGap false (Spot.written pos more) = Spot.written pos more := by
  rcases hmore with rfl | hhead
  · rfl
  · obtain ⟨rest, rfl⟩ := List.head?_eq_some_iff.mp hhead
    exact afterGap_lexeme (.inl rfl) fun h => absurd h (by decide)

/-- What is left behind a gap is what is left of the text after it. -/
theorem afterGap_gap {after gap : List Char} (h : Gap after gap) :
    afterGap false (Spot.written pos (gap ++ after)) =
      afterGap false (Spot.written (gap.foldl Position.advance pos) after) := by
  induction h generalizing pos with
  | nil => rfl
  | blank hblank hbreak _ ih =>
    rw [List.cons_append, afterGap_blank hblank hbreak, ih]
    rfl
  | comment hbody hafter =>
    have hinside : ∀ c ∈ _, endsComment c = false := fun c hc => by
      rw [endsComment, beq_eq_false_iff_ne.mpr (hbody c hc).1, beq_eq_false_iff_ne.mpr (hbody c hc).2]
      rfl
    have hbehind : ∀ c ∈ after.head?, endsComment c = true := by
      rcases hafter with rfl | hhead
      · simp
      · rw [hhead]
        rintro c ⟨⟩
        rfl
    rw [List.cons_append, List.cons_append, afterGap_slashes, afterGap_comment hinside hbehind,
      afterGap_of_head hafter]
    rfl

/-- A double ends in front of what does not go on with digits. -/
theorem numberTail_float (hmore : Kind.float.goesOn more = false) :
    numberTail false true (Spot.written pos more) = ⟨[], true, false, Spot.written pos more⟩ := by
  cases more with
  | nil => rfl
  | cons d more =>
    have hchar : (⟨.char d, pos⟩ : Spot).char = d := rfl
    have hd : isDigit d = false := hmore
    rw [Spot.written_cons, numberTail]
    simp only [Bool.false_and, Bool.false_eq_true, if_false, hchar, hd, Bool.not_true,
      Bool.and_false]

/-- A point is taken with the digit behind it. -/
theorem numberTail_point (hc : isDigit c = true) :
    numberTail false false (Spot.written pos ('.' :: c :: more)) =
      { numberTail false true (Spot.written (pos.advance '.') (c :: more)) with
        chars := '.' :: (numberTail false true (Spot.written (pos.advance '.') (c :: more))).chars } := by
  have hnext : ((Spot.written (pos.advance '.') (c :: more)).head?.any fun s => isDigit s.char) =
      true := hc
  have hchar : (⟨.char '.', pos⟩ : Spot).char = '.' := rfl
  have hpoint : isDigit '.' = false := by decide
  rw [Spot.written_cons, numberTail]
  simp only [Bool.false_and, Bool.false_eq_true, if_false, hchar, hpoint, hnext, Bool.not_false,
    beq_self_eq_true, Bool.and_true, if_true]

end Scan

/-- A whole number is written with one digit or more. -/
theorem Numeral.isWhole_iff {cs : List Char} :
    isWhole cs = true ↔ ∃ d ds, cs = d :: ds ∧ ∀ c ∈ d :: ds, Scan.isDigit c = true := by
  cases cs with
  | nil => simp [isWhole]
  | cons d ds =>
    rw [isWhole, List.isEmpty_cons, Bool.not_false, Bool.true_and, List.all_eq_true]
    constructor
    · exact fun h => ⟨d, ds, rfl, h⟩
    · rintro ⟨d', ds', heq, h⟩
      rw [heq]
      exact h

/-- A double is written as two whole numbers with a point between them. -/
theorem Numeral.isPointed_iff {cs : List Char} :
    isPointed cs = true ↔
      ∃ whole fraction, cs = whole ++ '.' :: fraction ∧ isWhole whole = true ∧
        isWhole fraction = true := by
  constructor
  · intro h
    unfold isPointed splitAtFirst at h
    have hcut := List.takeWhile_append_dropWhile (p := fun c => !(c == '.')) (l := cs)
    cases hdrop : cs.dropWhile fun c => !(c == '.') with
    | nil => simp [hdrop] at h
    | cons c fraction =>
      have hc := List.head?_dropWhile_not (fun c => !(c == '.')) cs
      simp only [hdrop, List.head?_cons, Bool.not_eq_false', beq_iff_eq] at hc
      simp only [hdrop, Bool.and_eq_true] at h
      rw [hdrop, hc] at hcut
      exact ⟨_, fraction, hcut.symm, h.1, h.2⟩
  · rintro ⟨whole, fraction, rfl, hwhole, hfraction⟩
    have hdigits : ∀ c ∈ whole, (!(c == '.')) = true := by
      obtain ⟨d, ds, rfl, hds⟩ := isWhole_iff.mp hwhole
      intro c hc
      rw [Bool.not_eq_true', beq_eq_false_iff_ne]
      rintro rfl
      exact absurd (hds _ hc) (by decide)
    unfold isPointed splitAtFirst
    rw [List.takeWhile_append_of_pos hdigits, List.dropWhile_append_of_pos hdigits]
    simp [hwhole, hfraction]

namespace Source

open Scan

variable {finish pos : Position} {more : List Char} {k : Kind} {value : String}

/-- A scan skips a gap. -/
theorem scan_gap {after gap : List Char} (h : Gap after gap) :
    (written finish pos (gap ++ after)).scan =
      (written finish (gap.foldl Position.advance pos) after).scan := by
  unfold scan written
  dsimp only
  rw [afterGap_gap h]
  rfl

/-- A double that is written out is scanned as one token. -/
theorem scan_float (hvalue : Numeral.isPointed value.toList = true)
    (hmore : Kind.float.goesOn more = false) :
    (written finish pos (value.toList ++ more)).scan =
      (.ok ⟨.float, value, pos⟩,
        written finish (value.toList.foldl Position.advance pos) more) := by
  obtain ⟨whole, fraction, hsplit, hwhole, hfraction⟩ := Numeral.isPointed_iff.mp hvalue
  obtain ⟨d, ds, rfl, hds⟩ := Numeral.isWhole_iff.mp hwhole
  obtain ⟨e, es, rfl, hes⟩ := Numeral.isWhole_iff.mp hfraction
  have hspelled : String.ofList (d :: (ds ++ '.' :: e :: es)) = value := by
    rw [← List.cons_append, ← hsplit, String.ofList_toList]
  have htail : numberTail false false (Spot.written (pos.advance d) (ds ++ '.' :: e :: (es ++ more))) =
      ⟨ds ++ '.' :: e :: es, true, false,
        Spot.written ((d :: (ds ++ '.' :: e :: es)).foldl Position.advance pos) more⟩ := by
    rw [numberTail_digits fun c hc => hds c (List.mem_cons_of_mem d hc),
      numberTail_point (hes e List.mem_cons_self), ← List.cons_append, numberTail_digits hes,
      numberTail_float hmore]
    simp
  rw [hsplit, List.cons_append, List.cons_append, List.append_assoc, List.cons_append,
    List.cons_append, scan_digit (hds d List.mem_cons_self), number, htail, ← hspelled]
  rfl

/-- The words that can be scanned back are those that their kind admits, line breaks and doubles
apart. -/
theorem isProper_eq_admits (hnewline : k ≠ .newline) (hfloat : k ≠ .float) :
    (Piece.word k value).isProper = k.admits value := by
  cases k <;> first | rfl | contradiction

/-- A lexeme that cannot go on is read as the token it spells. -/
theorem scan_spelled {lexeme : List Char} (hvalue : k.admits value = true)
    (hspells : k.Spells value lexeme) (hlongest : k.goesOn more = false) :
    (written finish pos (lexeme ++ more)).scan =
      (.ok ⟨k, value, pos⟩, written finish (lexeme.foldl Position.advance pos) more) := by
  by_cases hnewline : k = .newline
  · subst hnewline
    obtain rfl : lexeme = ['\n'] := hspells
    obtain rfl : value = "" := beq_iff_eq.mp hvalue
    exact scan_newline
  by_cases hstring : k = .string
  · subst hstring
    obtain ⟨body, hbody, rfl⟩ := hspells
    have hscan : (written finish pos ('"' :: (body ++ '"' :: more))).scan = (_, _) :=
      scan_literal hbody more
    rw [String.ofList_toList] at hscan
    rw [List.cons_append, List.append_assoc]
    exact hscan
  have hlexeme : lexeme = value.toList := by
    cases k <;> first | exact hspells | contradiction
  subst hlexeme
  by_cases hfloat : k = .float
  · subst hfloat
    exact scan_float hvalue hlongest
  · have hchars : (Piece.word k value).chars = value.toList := by
      cases k <;> first | rfl | contradiction
    have hproper : (Piece.word k value).isProper = true := by
      rw [isProper_eq_admits hnewline hfloat, hvalue]
    exact hchars ▸ scan_piece hproper hlongest

end Source

/-! ## What is read is a gap and a lexeme -/

/-- The characters start with a lexeme that cannot go on. -/
def StartsLexeme (cs : List Char) : Prop :=
  ∃ (k : Kind) (value : String) (lexeme rest : List Char), cs = lexeme ++ rest ∧
    k.admits value = true ∧ k.Spells value lexeme ∧ k.goesOn rest = false

namespace Kind

/-- Reserved words and signs have their own spelling. -/
theorem admits_spelling {k : Kind} (hk : k ∈ reserved ++ signs) :
    k.admits k.spelling = true ∧ k.Spells k.spelling k.spelling.toList := by
  cases k with
  | other code => simp [reserved, signs] at hk
  | _ => first | exact ⟨rfl, rfl⟩ | exact absurd hk (by decide)

/-- What a word stands for is spelled as a word. -/
theorem ofWord_isWord (word : String) : (ofWord word).isWord = true := by
  unfold ofWord
  cases hl : keywords.lookup word with
  | none => rfl
  | some k =>
    obtain ⟨before, after, hsplit, -⟩ := List.lookup_eq_some_iff.mp hl
    have hmem : (word, k) ∈ keywords := by
      rw [hsplit]
      simp
    have hkeywords : ∀ entry ∈ keywords, entry.2.isWord = true := by decide
    exact hkeywords _ hmem

/-- A kind that is spelled as a word is spelled by its value. -/
theorem spells_of_isWord {k : Kind} (hk : k.isWord = true) (value : String) :
    k.Spells value value.toList := by
  cases k with
  | newline | string => exact absurd hk (by decide)
  | _ => exact rfl

/-- A word that can be a name is admitted as what it stands for. -/
theorem admits_ofWord {c : Char} {cs : List Char} (hc : Scan.startsName c = true)
    (hcs : ∀ d ∈ cs, Scan.continuesName d = true) :
    (ofWord (String.ofList (c :: cs))).admits (String.ofList (c :: cs)) = true := by
  have hword := ofWord_isWord (String.ofList (c :: cs))
  have hspelled := spelled_ofWord (String.ofList (c :: cs)) .start
  simp only [isWord, Bool.or_eq_true, List.contains_iff_mem, List.mem_cons, List.not_mem_nil,
    or_false] at hword
  rcases hword with (hname | htruth) | hreserved
  · rw [hname, admits, isName, String.toList_ofList]
    simp only [hc, hname, List.all_eq_true.mpr hcs, Bool.and_self, beq_self_eq_true]
  · rw [htruth, admits, Bool.or_eq_true, beq_iff_eq, beq_iff_eq]
    exact hspelled.truth htruth
  · have hfixed := List.mem_append_left signs hreserved
    have hvalue := hspelled.fixed hfixed
    dsimp only at hvalue
    nth_rewrite 2 [hvalue]
    exact (admits_spelling hfixed).1

end Kind

namespace Scan

variable {c : Char} {cs : List Char} {k : Kind}

/-- A sign starts a lexeme if what follows does not go on with it. -/
theorem startsLexeme_fixed (hk : k ∈ Kind.signs) (hcs : k.goesOn cs = false) :
    StartsLexeme (k.spelling.toList ++ cs) := by
  obtain ⟨hvalue, hspells⟩ := Kind.admits_spelling (List.mem_append_right Kind.reserved hk)
  exact ⟨k, k.spelling, k.spelling.toList, cs, rfl, hvalue, hspells, hcs⟩

/-- What is left of a run does not start with another character of it. -/
theorem head?_dropWhile_any (p : Char → Bool) (cs : List Char) :
    (cs.dropWhile p).head?.any p = false := by
  have h := List.head?_dropWhile_not p cs
  cases hdrop : (cs.dropWhile p).head? with
  | none => rfl
  | some c =>
    rw [hdrop] at h
    exact h

/-- A character that can start a name starts a lexeme. -/
theorem startsLexeme_name (hc : startsName c = true) : StartsLexeme (c :: cs) := by
  have htaken : ∀ d ∈ cs.takeWhile continuesName, continuesName d = true :=
    List.all_eq_true.mp List.all_takeWhile
  have hword := Kind.ofWord_isWord (String.ofList (c :: cs.takeWhile continuesName))
  refine ⟨.ofWord (String.ofList (c :: cs.takeWhile continuesName)),
    String.ofList (c :: cs.takeWhile continuesName), c :: cs.takeWhile continuesName,
    cs.dropWhile continuesName, ?_, Kind.admits_ofWord hc htaken, ?_, ?_⟩
  · rw [List.cons_append, List.takeWhile_append_dropWhile]
  · have hspells := Kind.spells_of_isWord hword (String.ofList (c :: cs.takeWhile continuesName))
    rwa [String.toList_ofList] at hspells
  · rw [goesOn_of_isWord hword]
    exact head?_dropWhile_any continuesName cs

/-- The digits in front of a text make a whole number. -/
theorem isWhole_takeWhile (hc : isDigit c = true) (cs : List Char) :
    Numeral.isWhole (c :: cs.takeWhile isDigit) = true := by
  have htaken : ∀ d ∈ cs.takeWhile isDigit, isDigit d = true :=
    List.all_eq_true.mp List.all_takeWhile
  exact Numeral.isWhole_iff.mpr ⟨c, _, rfl, List.forall_mem_cons.mpr ⟨hc, htaken⟩⟩

/-- Digits with a point and another digit behind them start a lexeme. -/
theorem startsLexeme_float {e : Char} {more : List Char} (hc : isDigit c = true)
    (hdrop : cs.dropWhile isDigit = '.' :: e :: more) (he : isDigit e = true) :
    StartsLexeme (c :: cs) := by
  have hcut := List.takeWhile_append_dropWhile (p := isDigit) (l := cs)
  refine ⟨.float, String.ofList (c :: cs.takeWhile isDigit ++ '.' :: e :: more.takeWhile isDigit),
    c :: cs.takeWhile isDigit ++ '.' :: e :: more.takeWhile isDigit, more.dropWhile isDigit,
    ?_, ?_, String.toList_ofList.symm, ?_⟩
  · rw [List.cons_append, List.cons_append, List.append_assoc, List.cons_append, List.cons_append,
      List.takeWhile_append_dropWhile, ← hdrop, hcut]
  · rw [Kind.admits, String.toList_ofList]
    exact Numeral.isPointed_iff.mpr
      ⟨_, _, rfl, isWhole_takeWhile hc cs, isWhole_takeWhile he more⟩
  · have hend := head?_dropWhile_any isDigit more
    cases hleft : more.dropWhile isDigit with
    | nil => rfl
    | cons d left =>
      rw [hleft] at hend
      exact hend

/-- Digits with nothing behind them that goes on with a number start a lexeme. -/
theorem startsLexeme_integer (hc : isDigit c = true)
    (hpoint : Kind.integer.goesOn (cs.dropWhile isDigit) = false) : StartsLexeme (c :: cs) := by
  refine ⟨.integer, String.ofList (c :: cs.takeWhile isDigit), c :: cs.takeWhile isDigit,
    cs.dropWhile isDigit, ?_, ?_, String.toList_ofList.symm, hpoint⟩
  · rw [List.cons_append, List.takeWhile_append_dropWhile]
  · rw [Kind.admits, String.toList_ofList]
    exact isWhole_takeWhile hc cs

/-- A number goes up to its last digit, and goes on behind a point that a digit follows. -/
theorem startsLexeme_digit (hc : isDigit c = true) : StartsLexeme (c :: cs) := by
  cases hpoint : Kind.integer.goesOn (cs.dropWhile isDigit) with
  | false => exact startsLexeme_integer hc hpoint
  | true =>
    have hstop := head?_dropWhile_any isDigit cs
    cases hdrop : cs.dropWhile isDigit with
    | nil => simp [hdrop, Kind.goesOn] at hpoint
    | cons d left =>
      -- what stops the first digits is no digit, so it is the point
      have hd : isDigit d = false := by
        rw [hdrop] at hstop
        exact hstop
      rw [hdrop, Kind.goesOn, hd, Bool.false_or, Bool.and_eq_true, beq_iff_eq] at hpoint
      obtain ⟨rfl, hnext⟩ := hpoint
      cases left with
      | nil => simp at hnext
      | cons e more => exact startsLexeme_float hc hdrop hnext

/-- If a string is closed, a literal stands in front of its closing quote. -/
theorem exists_denotes {spots : List Spot} (h : (stringTail false spots).ending = .closed) :
    ∃ body value rest, spots.map Spot.char = body ++ '"' :: rest ∧ Denotes body value := by
  fun_induction stringTail false spots with
  | case1 => exact absurd h (by decide)
  | case2 s rest hbreak => exact absurd h (by simp)
  | case3 s rest hbreak hquote =>
    rw [List.map_cons, beq_iff_eq.mp hquote]
    exact ⟨[], [], rest.map Spot.char, rfl, .nil⟩
  | case4 s hbreak hquote hslash => exact absurd h (by decide)
  | case5 s hbreak hquote hslash e rest tail ih =>
    obtain ⟨body, value, left, hrest, hbody⟩ := ih h
    rw [List.map_cons, List.map_cons, beq_iff_eq.mp hslash, hrest]
    by_cases hn : e.char = 'n'
    · rw [hn]
      exact ⟨'\\' :: 'n' :: body, _, left, rfl, .lineBreak hbody⟩
    · by_cases ht : e.char = 't'
      · rw [ht]
        exact ⟨'\\' :: 't' :: body, _, left, rfl, .tab hbody⟩
      · exact ⟨'\\' :: e.char :: body, _, left, rfl, .escaped hn ht hbody⟩
  | case6 s rest hbreak hquote hslash tail ih =>
    obtain ⟨body, value, left, hrest, hbody⟩ := ih h
    rw [List.map_cons, hrest]
    exact ⟨s.char :: body, _, left, rfl, .plain (by simpa using hbreak) (by simpa using hquote)
      (by simpa using hslash) hbody⟩

/-- A sign starts a lexeme unless it starts a comment. -/
theorem startsLexeme_sign (hsign : sign? c = some k) (hcomment : c = '/' → cs.head? ≠ some '/') :
    StartsLexeme (c :: cs) := by
  have hkind : k ∈ Kind.signs ∧ k.goesOn cs = false := by
    unfold sign? at hsign
    split at hsign
    all_goals cases hsign
    all_goals
      refine ⟨by decide, ?_⟩
      cases cs with
      | nil => rfl
      | cons d cs =>
        first
          | rfl
          | exact beq_eq_false_iff_ne.mpr fun h => hcomment rfl (congrArg some h)
  have hlexeme := startsLexeme_fixed hkind.1 hkind.2
  rw [(spelling_of_sign? hsign).1, String.toList_ofList] at hlexeme
  exact hlexeme

/-- A sign with the character that extends it starts a lexeme. -/
theorem startsLexeme_extended {e : Extensible} (hext : extensible? c = some e) :
    StartsLexeme (c :: e.second :: cs) := by
  have hkind : e.extended ∈ Kind.signs ∧ e.extended.goesOn cs = false := by
    unfold extensible? at hext
    split at hext
    all_goals cases hext
    all_goals
      refine ⟨by decide, ?_⟩
      cases cs <;> rfl
  have hlexeme := startsLexeme_fixed hkind.1 hkind.2
  rw [(spelling_of_extensible? hext).1.1, String.toList_ofList] at hlexeme
  exact hlexeme

/-- A sign without the character that would extend it starts a lexeme, if it can stand alone. -/
theorem startsLexeme_alone {e : Extensible} (hext : extensible? c = some e) (halone : e.alone = some k)
    (hcs : cs.head? ≠ some e.second) : StartsLexeme (c :: cs) := by
  have hkind : k ∈ Kind.signs ∧ k.goesOn cs = false := by
    unfold extensible? at hext
    split at hext
    all_goals cases hext
    all_goals cases halone
    all_goals
      refine ⟨by decide, ?_⟩
      cases cs with
      | nil => rfl
      | cons d cs => exact beq_eq_false_iff_ne.mpr fun h => hcs (congrArg some h)
  have hlexeme := startsLexeme_fixed hkind.1 hkind.2
  rw [((spelling_of_extensible? hext).2 k halone).1, String.toList_ofList] at hlexeme
  exact hlexeme

/-- A string that is closed starts a lexeme. -/
theorem startsLexeme_string {pos : Position}
    (h : (stringTail false (Spot.written pos cs)).ending = .closed) : StartsLexeme ('"' :: cs) := by
  obtain ⟨body, value, rest, hcs, hbody⟩ := exists_denotes h
  rw [Spot.map_char_written] at hcs
  refine ⟨.string, String.ofList value, '"' :: (body ++ ['"']), rest, ?_, rfl, ⟨body, ?_, rfl⟩, ?_⟩
  · rw [hcs, List.cons_append, List.append_assoc, List.singleton_append]
  · rwa [String.toList_ofList]
  · cases rest <;> rfl

/-- Where a token is read, a lexeme stands. -/
theorem startsLexeme_of_lexemeAt {pos place : Position} {t : Token} {left : List Spot}
    (h : lexemeAt false ⟨.char c, pos⟩ (Spot.written place cs) = (.ok t, left))
    (hcomment : c = '/' → cs.head? ≠ some '/') : StartsLexeme (c :: cs) := by
  have hchar : (⟨.char c, pos⟩ : Spot).char = c := rfl
  unfold lexemeAt at h
  rw [hchar] at h
  split at h
  next hbreak =>
    obtain rfl := beq_iff_eq.mp hbreak
    exact ⟨.newline, "", ['\n'], cs, rfl, rfl, rfl, by cases cs <;> rfl⟩
  next =>
    split at h
    next e hext =>
      unfold extensibleSign at h
      rw [Bool.false_and, if_neg Bool.false_ne_true] at h
      by_cases hsecond : cs.head? = some e.second
      · obtain ⟨more, rfl⟩ := List.head?_eq_some_iff.mp hsecond
        exact startsLexeme_extended hext
      · rw [if_neg fun hstart => hsecond ((startsWith_written _ _ _).mp hstart)] at h
        cases halone : e.alone with
        | none => simp [halone, invalid] at h
        | some k => exact startsLexeme_alone hext halone hsecond
    next kind _ hsign => exact startsLexeme_sign hsign hcomment
    next =>
      split at h
      next hquote =>
        obtain rfl := beq_iff_eq.mp hquote
        unfold string at h
        cases hend : (stringTail false (Spot.written place cs)).ending with
        | closed => exact startsLexeme_string hend
        | unclosed => simp [hend] at h
        | refused => simp [hend] at h
      next =>
        split at h
        next hdigit => exact startsLexeme_digit hdigit
        next =>
          split at h
          next hname => exact startsLexeme_name hname
          next => simp [invalid] at h

/-- What stands in a comment, and what is left behind it. -/
theorem exists_comment (cs : List Char) :
    ∃ body after, cs = body ++ after ∧ (∀ c ∈ body, endsComment c = false) ∧
      ∀ c ∈ after.head?, endsComment c = true := by
  refine ⟨cs.takeWhile fun c => !endsComment c, cs.dropWhile fun c => !endsComment c,
    List.takeWhile_append_dropWhile.symm, ?_, ?_⟩
  · intro c hc
    have hkept := List.all_eq_true.mp List.all_takeWhile c hc
    rwa [Bool.not_eq_true'] at hkept
  · intro c hc
    have hstop := List.head?_dropWhile_not (fun c => !endsComment c) cs
    rw [Option.mem_def.mp hc] at hstop
    simpa using hstop

/-- A comment that is left at a line break or at the end is a gap. -/
theorem gap_of_comment {body after : List Char} (hbody : ∀ c ∈ body, endsComment c = false)
    (hafter : ∀ c ∈ after.head?, endsComment c = true) (hnul : after.head? ≠ some '\x00') :
    Gap after ('/' :: '/' :: body) := by
  refine .comment (fun c hc => ?_) ?_
  · have hc := hbody c hc
    rwa [endsComment, Bool.or_eq_false_iff, beq_eq_false_iff_ne, beq_eq_false_iff_ne] at hc
  · cases after with
    | nil => exact .inl rfl
    | cons d after =>
      have hd : endsComment d = true := hafter d rfl
      rw [endsComment, Bool.or_eq_true, beq_iff_eq, beq_iff_eq] at hd
      rcases hd with rfl | rfl
      · exact .inr rfl
      · exact absurd rfl hnul

/-- White space and comments in front of the characters are a gap, unless the last comment breaks off
at a NUL. -/
theorem exists_gap (cs : List Char) :
    ∃ gap after, cs = gap ++ after ∧
      (∀ pos, afterGap false (Spot.written pos cs) =
        Spot.written (gap.foldl Position.advance pos) after) ∧
      (after.head? ≠ some '\x00' → Gap after gap) ∧
      (after.head? = some '/' → after.tail.head? ≠ some '/') := by
  induction cs with
  | nil => exact ⟨[], [], rfl, fun _ => rfl, fun _ => .nil, by simp⟩
  | cons c cs ih =>
    by_cases hcomment : c = '/' ∧ cs.head? = some '/'
    · obtain ⟨rfl, hhead⟩ := hcomment
      obtain ⟨rest, rfl⟩ := List.head?_eq_some_iff.mp hhead
      obtain ⟨body, after, rfl, hbody, hafter⟩ := exists_comment rest
      refine ⟨'/' :: '/' :: body, after, rfl, ?_, gap_of_comment hbody hafter, ?_⟩
      · intro pos
        rw [afterGap_slashes]
        exact afterGap_comment hbody hafter
      · intro hslash
        exact absurd (hafter '/' hslash) (by decide)
    · by_cases hblank : Text.isBlank c = true ∧ c ≠ '\n'
      · obtain ⟨gap, after, rfl, hskip, hgap, hslash⟩ := ih
        refine ⟨c :: gap, after, rfl, ?_, fun h => .blank hblank.1 hblank.2 (hgap h), hslash⟩
        intro pos
        rw [afterGap_blank hblank.1 hblank.2]
        exact hskip _
      · refine ⟨[], c :: cs, rfl, ?_, fun _ => .nil, ?_⟩
        · intro pos
          refine afterGap_lexeme ?_ fun h hhead => hcomment ⟨h, hhead⟩
          by_cases hbreak : c = '\n'
          · exact .inl hbreak
          · exact .inr (Bool.eq_false_iff.mpr fun h => hblank ⟨h, hbreak⟩)
        · intro h hhead
          exact hcomment ⟨Option.some.inj h, hhead⟩

end Scan

namespace Source

open Scan

variable {finish pos : Position} {cs : List Char} {t : Token} {left : Source}

/-- A scan that gives a token has passed over a gap, and behind it stands a lexeme or nothing. -/
theorem lexeme_of_scan (h : (written finish pos cs).scan = (.ok t, left)) :
    Gap [] cs ∨ ∃ gap after, cs = gap ++ after ∧ Gap after gap ∧ StartsLexeme after := by
  obtain ⟨gap, after, rfl, hskip, hgap, hslash⟩ := exists_gap cs
  cases after with
  | nil =>
    rw [List.append_nil]
    exact .inl (hgap (by simp))
  | cons c more =>
    unfold scan written at h
    simp only [hskip, Spot.written_cons, Prod.mk.injEq] at h
    have hlexeme : StartsLexeme (c :: more) :=
      startsLexeme_of_lexemeAt (Prod.ext h.1 rfl) fun hc => hslash (congrArg some hc)
    have hnul : c ≠ '\x00' := by
      rintro rfl
      have hinvalid : ∀ place rest, lexemeAt false ⟨.char '\x00', place⟩ rest =
          invalid ⟨.char '\x00', place⟩ rest := fun _ _ => rfl
      simp [hinvalid, invalid] at h
    exact .inr ⟨gap, c :: more, rfl, hgap fun hc => hnul (Option.some.inj hc), hlexeme⟩

/-- In front of a text that is cut into tokens stands a gap, with a lexeme behind it unless the text
ends there. -/
theorem lexeme_of_stream {front : List Token} {e : Token}
    (h : (written finish pos cs).stream = ⟨front, .ok e⟩) :
    Gap [] cs ∨ ∃ gap after, cs = gap ++ after ∧ Gap after gap ∧ StartsLexeme after := by
  obtain ⟨x, left, -, hstream⟩ | ⟨t, left, hscan, -⟩ | ⟨t, left, hscan, -⟩ :=
    (written finish pos cs).stream_cases
  · rw [hstream] at h
    simp at h
  · exact lexeme_of_scan hscan
  · exact lexeme_of_scan hscan

/-- A text that is only a gap has no token but the end of the input. -/
theorem stream_of_gap (h : Gap [] cs) :
    (written finish pos cs).stream = ⟨[], .ok ⟨.endOfInput, "", finish⟩⟩ := by
  have hscan : (written finish pos (cs ++ [])).scan = (.ok ⟨.endOfInput, "", finish⟩, _) := scan_gap h
  rw [List.append_nil] at hscan
  exact stream_of_end hscan rfl

/-- A gap and a lexeme in front of a text give its first token. -/
theorem stream_of_lexeme {before gap lexeme rest : List Char} {k : Kind} {value : String}
    (hgap : Gap (lexeme ++ rest) gap) (hvalue : k.admits value = true)
    (hspells : k.Spells value lexeme) (hlongest : k.goesOn rest = false) :
    (written finish (.behind before) (gap ++ (lexeme ++ rest))).stream =
      ⟨⟨k, value, .behind (before ++ gap)⟩ ::
          (written finish (.behind (before ++ gap ++ lexeme)) rest).stream.front,
        (written finish (.behind (before ++ gap ++ lexeme)) rest).stream.final⟩ := by
  have hscan : (written finish (.behind before) (gap ++ (lexeme ++ rest))).scan =
      (.ok ⟨k, value, .behind (before ++ gap)⟩,
        written finish (.behind (before ++ gap ++ lexeme)) rest) := by
    rw [scan_gap hgap, scan_spelled hvalue hspells hlongest, Position.foldl_advance_behind,
      Position.foldl_advance_behind]
  have hend : k ≠ .endOfInput := by
    rintro rfl
    exact absurd hvalue (by simp [Kind.admits, Kind.reserved, Kind.signs])
  exact stream_of_token hscan hend

/-- A text that is cut by the rules is cut so by the scanner. -/
theorem stream_of_cut {before rest : List Char} {tokens : List Token} (h : Cut before rest tokens)
    (hfinish : finish = .behind (before ++ rest)) :
    ∃ front e, (written finish (.behind before) rest).stream = ⟨front, .ok e⟩ ∧
      front ++ [e] = tokens := by
  induction h with
  | finish hgap =>
    rw [stream_of_gap hgap, hfinish]
    exact ⟨[], _, rfl, rfl⟩
  | token hgap hvalue hspells hlongest more ih =>
    obtain ⟨front, e, hstream, hfront⟩ := ih (by simp only [hfinish, List.append_assoc])
    rw [stream_of_lexeme hgap hvalue hspells hlongest, hstream]
    exact ⟨_ :: front, e, rfl, congrArg _ hfront⟩

/-- What the scanner cuts is cut by the rules. -/
theorem cut_of_stream {front : List Token} {e : Token} {before rest : List Char}
    (h : (written finish (.behind before) rest).stream = ⟨front, .ok e⟩)
    (hfinish : finish = .behind (before ++ rest)) : Cut before rest (front ++ [e]) := by
  -- each scan takes one token off the front
  induction front generalizing before rest with
  | nil =>
    obtain hgap | ⟨gap, after, rfl, hgap, k, value, lexeme, more, rfl, hvalue, hspells, hlongest⟩ :=
      lexeme_of_stream h
    · rw [stream_of_gap hgap, hfinish] at h
      injection h with _ hfinal
      injection hfinal with hfinal
      exact hfinal ▸ .finish hgap
    · rw [stream_of_lexeme hgap hvalue hspells hlongest] at h
      simp at h
  | cons t front ih =>
    obtain hgap | ⟨gap, after, rfl, hgap, k, value, lexeme, more, rfl, hvalue, hspells, hlongest⟩ :=
      lexeme_of_stream h
    · rw [stream_of_gap hgap] at h
      simp at h
    · rw [stream_of_lexeme hgap hvalue hspells hlongest] at h
      injection h with hfront hfinal
      injection hfront with ht hfront
      have hmore : (written finish (.behind (before ++ gap ++ lexeme)) more).stream =
          ⟨front, .ok e⟩ := by rw [← hfront, ← hfinal]
      rw [← ht, List.cons_append]
      exact .token hgap hvalue hspells hlongest
        (ih hmore (by simp only [hfinish, List.append_assoc]))

end Source

/-! ## The tokens of a text -/

/-- A stream without a stop is its tokens and the end of the input. -/
theorem TokenStream.toList_eq_iff {s : TokenStream} {tokens : List Token} :
    (s.halt? = none ∧ s.toList = tokens) ↔ ∃ front e, s = ⟨front, .ok e⟩ ∧ front ++ [e] = tokens := by
  obtain ⟨front, final⟩ := s
  cases final with
  | error x => simp [halt?]
  | ok e => simp [halt?, toList]

/-- The tokens of a text that is cut by the rules are those of the cut. -/
theorem TokenStream.toList_of_cut {text : Text} {tokens : List Token}
    (h : Cut [] text.chars tokens) :
    (ofText text).halt? = none ∧ (ofText text).toList = tokens := by
  rw [ofText_eq_written]
  exact toList_eq_iff.mpr (Source.stream_of_cut h rfl)

/-- A text is cut into tokens exactly if it consists of gaps and lexemes, and then the tokens are what
the lexemes spell, each at the place of its lexeme, with the end of the text behind them. -/
theorem tokens_are_the_lexemes (text : Text) (tokens : List Token) :
    ((TokenStream.ofText text).halt? = none ∧ (TokenStream.ofText text).toList = tokens) ↔
      Cut [] text.chars tokens := by
  refine ⟨fun h => ?_, TokenStream.toList_of_cut⟩
  rw [TokenStream.ofText_eq_written] at h
  obtain ⟨front, e, hstream, rfl⟩ := TokenStream.toList_eq_iff.mp h
  exact Source.cut_of_stream hstream rfl

end Offside
