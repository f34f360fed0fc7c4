import Offside.Proofs.Text.Utf8
import Offside.Proofs.Token.Legal
import Offside.Decimal.Numeral
import Mathlib.Tactic.Common

/-!
# Written tokens and how they are read

A source is written as a list of pieces: words, line breaks and indentations. One blank stands
between two words, except behind an opening parenthesis, in front of a closing one, a comma, a colon
and the parenthesis of a call. Reading what was written gives back the words and line breaks, each
at the place where it was written: `TokenStream.ofText_written`.
-/

set_option autoImplicit false

namespace Offside

/-- The spelling of a kind whose tokens are all spelled the same. -/
def Kind.spelling : Kind → String
  | letWord => "let"
  | fnWord => "fn"
  | matchWord => "match"
  | ifWord => "if"
  | elifWord => "elif"
  | elseWord => "else"
  | whileWord => "while"
  | returnWord => "return"
  | leftParen => "("
  | rightParen => ")"
  | assign => "="
  | bar => "|"
  | colon => ":"
  | comma => ","
  | arrow => "->"
  | k => k.symbol

/-- The kinds of reserved words, the truth words apart. -/
def Kind.reserved : List Kind :=
  [.letWord, .fnWord, .matchWord, .andWord, .orWord, .notWord, .ifWord, .elifWord, .elseWord,
    .whileWord, .returnWord]

/-- The kinds of signs. -/
def Kind.signs : List Kind :=
  [.plus, .minus, .times, .divide, .modulo, .leftParen, .rightParen, .assign, .bar, .colon, .comma,
    .greater, .less, .equal, .notEqual, .greaterEqual, .lessEqual, .arrow]

/-- Whether tokens of the kind are words. -/
def Kind.isWord (k : Kind) : Bool := [identifier, boolean].contains k || reserved.contains k

/-- Whether the characters behind a lexeme of the kind would still belong to it, or would make a
comment of it. -/
def Kind.goesOn (k : Kind) : List Char → Bool
  | [] => false
  | c :: rest =>
      match k with
      | integer => Scan.isDigit c || c == '.' && rest.head?.any Scan.isDigit
      | float => Scan.isDigit c
      | assign | greater | less => c == '='
      | minus => c == '>'
      | divide => c == '/'
      | k => k.isWord && Scan.continuesName c

/-- What stands between the quotes of a string, and the characters it denotes. -/
inductive Denotes : (body value : List Char) → Prop
  | nil : Denotes [] []
  | plain {c : Char} {body value : List Char} (hbreak : c ≠ '\n') (hquote : c ≠ '"')
      (hslash : c ≠ '\\') (more : Denotes body value) : Denotes (c :: body) (c :: value)
  | lineBreak {body value : List Char} (more : Denotes body value) :
      Denotes ('\\' :: 'n' :: body) ('\n' :: value)
  | tab {body value : List Char} (more : Denotes body value) :
      Denotes ('\\' :: 't' :: body) ('\t' :: value)
  | escaped {c : Char} {body value : List Char} (hbreak : c ≠ 'n') (htab : c ≠ 't')
      (more : Denotes body value) : Denotes ('\\' :: c :: body) (c :: value)

/-- A piece of a written source. -/
inductive Piece where
  /-- A token other than a line break. -/
  | word (kind : Kind) (value : String)
  /-- A line break. -/
  | newline
  /-- The indentation of a line, two blanks for each level. -/
  | indent (depth : Nat)
  deriving DecidableEq, Repr, Inhabited

namespace Piece

/-- The word of a kind whose tokens are all spelled the same. -/
def fixed (k : Kind) : Piece := word k k.spelling

/-- A character as it is written inside a string. -/
def escape (c : Char) : List Char :=
  if c = '\n' then ['\\', 'n'] else if c = '"' ∨ c = '\\' then ['\\', c] else [c]

/-- The characters of a piece. -/
def chars : Piece → List Char
  | word .string value => '"' :: value.toList.flatMap escape ++ ['"']
  | word _ value => value.toList
  | newline => ['\n']
  | indent depth => List.replicate (2 * depth) ' '

/-- What stands between a piece and the pieces after it. -/
def gap : Piece → List Piece → List Char
  | word .leftParen _, _ => []
  | word .identifier _, word .leftParen _ :: _ => []
  | word _ _, word .rightParen _ :: _ => []
  | word _ _, word .comma _ :: _ => []
  | word _ _, word .colon _ :: _ => []
  | word _ _, newline :: _ => []
  | word _ _, _ => [' ']
  | _, _ => []

/-- The characters of pieces one after the other. -/
def written : List Piece → List Char
  | [] => []
  | p :: rest => p.chars ++ (p.gap rest ++ written rest)

/-- The token of a piece that is written at a place. -/
def token? (pos : Position) : Piece → Option Token
  | word kind value => some ⟨kind, value, pos⟩
  | newline => some ⟨.newline, "", pos⟩
  | indent _ => none

/-- The tokens of pieces that are written from a place on. -/
def tokens (pos : Position) : List Piece → List Token
  | [] => []
  | p :: rest =>
      (p.token? pos).toList ++ tokens ((p.chars ++ p.gap rest).foldl Position.advance pos) rest

/-- Whether a piece can be read back: a name is spelled like one, a whole number consists of digits,
and so on. -/
def isProper : Piece → Bool
  | word .identifier value => isName value
  | word .integer value => Numeral.isWhole value.toList
  | word .string _ => true
  | word .boolean value => value == "true" || value == "false"
  | word kind value => (Kind.reserved ++ Kind.signs).contains kind && value == kind.spelling
  | newline | indent _ => true

/-- A token with a fixed spelling is written in that spelling. -/
theorem chars_fixed {k : Kind} (h : k ≠ .string) : (word k k.spelling).chars = k.spelling.toList := by
  cases k <;> first | rfl | exact absurd rfl h

/-- The escaped characters of a string denote the string. -/
theorem denotes_escape (cs : List Char) : Denotes (cs.flatMap escape) cs := by
  induction cs with
  | nil => exact .nil
  | cons c cs ih =>
    rw [List.flatMap_cons, escape]
    split
    next hbreak =>
      subst hbreak
      exact .lineBreak ih
    next hbreak =>
      split
      next hmark =>
        rcases hmark with rfl | rfl
        · exact .escaped (by decide) (by decide) ih
        · exact .escaped (by decide) (by decide) ih
      next hmark =>
        obtain ⟨hquote, hslash⟩ := not_or.mp hmark
        exact .plain hbreak hquote hslash ih

end Piece

/-! ## Classes of characters -/

namespace Scan

/-- The characters that may follow a word. -/
def enders : List Char := [' ', '\n', '(', ')', ',', ':']

/-- No sign, digit or blank starts a name. -/
theorem not_startsName_of_lt {c : Char} (h : c.toNat < 0x41) : startsName c = false := by
  have hletter : Text.isLetter c = false := by
    show Text.inRanges ((0x41, 0x5A) :: _) c.toNat = false
    rw [Text.inRanges, if_pos h]
  have hne : c ≠ '_' := by
    rintro rfl
    exact absurd h (by decide)
  rw [startsName, hletter, Bool.or_false]
  exact beq_eq_false_iff_ne.mpr hne

/-- A name ends in front of a blank, a line break, a parenthesis, a comma or a colon. -/
theorem not_continuesName_of_mem_enders {c : Char} (h : c ∈ enders) : continuesName c = false := by
  simp only [enders, List.mem_cons, List.not_mem_nil, or_false] at h
  rcases h with rfl | rfl | rfl | rfl | rfl | rfl <;> decide

/-- No lexeme goes on with a character that may follow a word. -/
theorem not_goesOn_of_mem_enders {c : Char} (h : c ∈ enders) (k : Kind) (more : List Char) :
    k.goesOn (c :: more) = false := by
  have hname := not_continuesName_of_mem_enders h
  have hother : isDigit c = false ∧ c ≠ '.' ∧ c ≠ '=' ∧ c ≠ '>' ∧ c ≠ '/' := by
    simp only [enders, List.mem_cons, List.not_mem_nil, or_false] at h
    rcases h with rfl | rfl | rfl | rfl | rfl | rfl <;> decide
  simp only [Kind.goesOn]
  split <;> simp [hname, hother]

/-- A word goes on with what can be in a name. -/
theorem goesOn_of_isWord {k : Kind} (hk : k.isWord = true) (more : List Char) :
    k.goesOn more = more.head?.any continuesName := by
  cases more with
  | nil => rfl
  | cons d more =>
    simp only [Kind.isWord, Bool.or_eq_true, List.contains_iff_mem, List.mem_cons, Kind.reserved,
      List.not_mem_nil, or_false] at hk
    rcases hk with (rfl | rfl) | rfl | rfl | rfl | rfl | rfl | rfl | rfl | rfl | rfl | rfl | rfl <;> rfl

/-- A character of a class without signs is no sign. -/
theorem not_sign {p : Char → Bool} {c : Char} (hc : p c = true)
    (hp : ['=', '!', '>', '<', '-', '+', '*', '%', '/', '(', ')', '|', ':', ','].any p = false) :
    extensible? c = none ∧ sign? c = none := by
  have hne : ∀ d ∈ ['=', '!', '>', '<', '-', '+', '*', '%', '/', '(', ')', '|', ':', ','],
      c ≠ d := by
    rintro d hd rfl
    rw [List.any_eq_false] at hp
    exact hp _ hd hc
  constructor
  · unfold extensible?
    split <;> first | rfl | exact absurd rfl (hne _ (by simp))
  · unfold sign?
    split <;> first | rfl | exact absurd rfl (hne _ (by simp))

/-- A character that starts a name is no blank. -/
theorem not_isBlank_of_startsName {c : Char} (h : startsName c = true) :
    Text.isBlank c = false := by
  have hnone : ∀ n ∈ Text.blankPoints, Text.inRanges Text.letterRanges n = false := by
    decide +kernel
  cases hb : Text.isBlank c with
  | false => rfl
  | true =>
    have hmem : c.toNat ∈ Text.blankPoints := List.contains_iff_mem.mp hb
    have hunderscore : c ≠ '_' := by
      rintro rfl
      exact absurd hmem (by decide)
    rw [startsName, Text.isLetter, hnone _ hmem, Bool.or_false, beq_iff_eq] at h
    exact absurd h hunderscore

end Scan

/-! ## Scanning written characters -/

/-- The spots of characters that are written from a place on. -/
def Spot.written (pos : Position) (cs : List Char) : List Spot := locate pos (cs.map Rune.char)

/-- The rest of a source that is written from a place on. -/
def Source.written (finish pos : Position) (cs : List Char) : Source :=
  ⟨Spot.written pos cs, finish, false⟩

namespace Spot

/-- The first character is at the start, and the others behind it. -/
theorem written_cons (pos : Position) (c : Char) (cs : List Char) :
    written pos (c :: cs) = ⟨.char c, pos⟩ :: written (pos.advance c) cs := rfl

/-- The second of two texts is written where the first one ends. -/
theorem written_append (pos : Position) (cs ds : List Char) :
    written pos (cs ++ ds) = written pos cs ++ written (cs.foldl Position.advance pos) ds := by
  induction cs generalizing pos with
  | nil => rfl
  | cons c cs ih => rw [List.cons_append, written_cons, written_cons, ih, List.foldl_cons,
      List.cons_append]

/-- The characters that are written are there. -/
theorem map_char_written (pos : Position) (cs : List Char) : (written pos cs).map char = cs := by
  induction cs generalizing pos with
  | nil => rfl
  | cons c cs ih =>
    rw [written_cons, List.map_cons, ih]
    rfl

/-- What holds of all characters holds of all spots. -/
theorem all_written (pos : Position) (cs : List Char) (p : Char → Bool) :
    (∀ s ∈ written pos cs, p s.char = true) ↔ ∀ c ∈ cs, p c = true := by
  nth_rewrite 2 [← map_char_written pos cs]
  rw [List.forall_mem_map]

end Spot

namespace Scan

variable {pos : Position} {c e : Char} {cs more : List Char}

/-- A written text starts with its first character. -/
theorem startsWith_written (e : Char) (pos : Position) (cs : List Char) :
    startsWith e (Spot.written pos cs) = true ↔ cs.head? = some e := by
  cases cs with
  | nil => simp [startsWith, Spot.written, Spot.locate]
  | cons d cs =>
    rw [List.head?_cons, Option.some.injEq]
    exact beq_iff_eq

/-- Nothing is passed over in front of a line break, nor in front of what is neither white space nor
the start of a comment. -/
theorem afterGap_lexeme (hblank : c = '\n' ∨ Text.isBlank c = false)
    (hcomment : c = '/' → more.head? ≠ some '/') :
    afterGap false (Spot.written pos (c :: more)) = Spot.written pos (c :: more) := by
  have hchar : (⟨.char c, pos⟩ : Spot).char = c := rfl
  have hstart : (c == '/' && startsWith '/' (Spot.written (pos.advance c) more)) = false := by
    rw [Bool.eq_false_iff, ne_eq, Bool.and_eq_true, beq_iff_eq, startsWith_written]
    exact fun h => hcomment h.1 h.2
  have hkept : (c != '\n' && Text.isBlank c) = false := by
    rcases hblank with rfl | hblank
    · rfl
    · rw [hblank, Bool.and_false]
  rw [Spot.written_cons, afterGap]
  simp only [hchar, hstart, hkept, Bool.false_eq_true, if_false]

/-- A word is scanned up to the first character that is not in a name. -/
theorem word_written (hcs : ∀ d ∈ cs, continuesName d = true)
    (hmore : more.head?.any continuesName = false) :
    word false ⟨.char c, pos⟩ (Spot.written (pos.advance c) (cs ++ more)) =
      lexeme (.ofWord (String.ofList (c :: cs))) (c :: cs) pos
        (Spot.written ((c :: cs).foldl Position.advance pos) more) := by
  have htaken := (Spot.all_written (pos.advance c) cs continuesName).mpr hcs
  have hstop : ∀ place, (Spot.written place more).takeWhile (fun s => continuesName s.char) = [] ∧
      (Spot.written place more).dropWhile (fun s => continuesName s.char) =
        Spot.written place more := by
    intro place
    cases more with
    | nil => exact ⟨rfl, rfl⟩
    | cons d more =>
      have hd : ¬ continuesName (⟨.char d, place⟩ : Spot).char = true :=
        ne_true_of_eq_false hmore
      rw [Spot.written_cons]
      exact ⟨List.takeWhile_cons_of_neg hd, List.dropWhile_cons_of_neg hd⟩
  unfold word
  rw [Spot.written_append, List.takeWhile_append_of_pos htaken, List.dropWhile_append_of_pos htaken,
    (hstop _).1, (hstop _).2, List.append_nil]
  dsimp only
  rw [Spot.map_char_written]
  rfl

/-- Digits are taken one after the other. -/
theorem numberTail_digits {hasPoint : Bool} (hcs : ∀ d ∈ cs, isDigit d = true) :
    numberTail false hasPoint (Spot.written pos (cs ++ more)) =
      { numberTail false hasPoint (Spot.written (cs.foldl Position.advance pos) more) with
        chars := cs ++ (numberTail false hasPoint
          (Spot.written (cs.foldl Position.advance pos) more)).chars } := by
  induction cs generalizing pos with
  | nil => rfl
  | cons d cs ih =>
    have hd := hcs d List.mem_cons_self
    have hchar : (⟨.char d, pos⟩ : Spot).char = d := rfl
    rw [List.cons_append, Spot.written_cons, numberTail]
    simp only [Bool.false_and, Bool.false_eq_true, if_false, hchar, hd, if_true]
    rw [ih fun d' hd' => hcs d' (List.mem_cons_of_mem d hd')]
    rfl

/-- A whole number ends in front of what does not go on with it. -/
theorem numberTail_integer (hmore : Kind.integer.goesOn more = false) :
    numberTail false false (Spot.written pos more) = ⟨[], false, false, Spot.written pos more⟩ := by
  cases more with
  | nil => rfl
  | cons d more =>
    have hchar : (⟨.char d, pos⟩ : Spot).char = d := rfl
    have hhead : ((Spot.written (pos.advance d) more).head?.any fun s => isDigit s.char) =
        more.head?.any isDigit := by
      cases more <;> rfl
    simp only [Kind.goesOn, Bool.or_eq_false_iff] at hmore
    rw [Spot.written_cons, numberTail]
    simp only [Bool.false_and, Bool.false_eq_true, if_false, hchar, hmore.1, hhead, hmore.2,
      Bool.not_false, Bool.and_true]

/-- A quote closes a string. -/
theorem stringTail_quote (rest : List Spot) :
    stringTail false (⟨.char '"', pos⟩ :: rest) = ⟨[], .closed, rest⟩ := by
  rw [stringTail.eq_def]
  rfl

/-- A character behind a backslash is unescaped. -/
theorem stringTail_escaped (s : Spot) (rest : List Spot) :
    stringTail false (⟨.char '\\', pos⟩ :: s :: rest) =
      { stringTail false rest with
        chars := unescape s.char :: (stringTail false rest).chars } := by
  rw [stringTail]
  rfl

/-- A character that is neither a quote, a backslash nor a line break stands for itself. -/
theorem stringTail_plain (hbreak : c ≠ '\n') (hquote : c ≠ '"') (hslash : c ≠ '\\')
    (rest : List Spot) :
    stringTail false (⟨.char c, pos⟩ :: rest) =
      { stringTail false rest with chars := c :: (stringTail false rest).chars } := by
  have hchar : (⟨.char c, pos⟩ : Spot).char = c := rfl
  rw [stringTail.eq_def]
  simp only [hchar, beq_eq_false_iff_ne.mpr hbreak, beq_eq_false_iff_ne.mpr hquote,
    beq_eq_false_iff_ne.mpr hslash, Bool.false_eq_true, if_false]

/-- The characters between two quotes are taken for what they denote. -/
theorem stringTail_denotes {body value : List Char} (h : Denotes body value) (more : List Char) :
    stringTail false (Spot.written pos (body ++ '"' :: more)) =
      ⟨value, .closed, Spot.written ((body ++ ['"']).foldl Position.advance pos) more⟩ := by
  induction h generalizing pos with
  | nil => exact stringTail_quote _
  | plain hbreak hquote hslash _ ih =>
    rw [List.cons_append, Spot.written_cons, stringTail_plain hbreak hquote hslash, ih]
    rfl
  | lineBreak _ ih | tab _ ih =>
    rw [List.cons_append, List.cons_append, Spot.written_cons, Spot.written_cons, stringTail_escaped,
      ih]
    rfl
  | @escaped c _ _ hbreak htab _ ih =>
    have hitself : unescape c = c := by
      rw [unescape, beq_eq_false_iff_ne.mpr hbreak, beq_eq_false_iff_ne.mpr htab]
      rfl
    have hchar : ∀ place, (⟨.char c, place⟩ : Spot).char = c := fun _ => rfl
    rw [List.cons_append, List.cons_append, Spot.written_cons, Spot.written_cons, stringTail_escaped,
      ih, hchar, hitself]
    rfl

end Scan

namespace Source

open Scan

variable {finish pos : Position} {c e : Char} {cs more : List Char} {k : Kind}

/-- A blank in front is skipped. -/
theorem scan_space : (written finish pos (' ' :: more)).scan =
    (written finish (pos.advance ' ') more).scan := by
  have hgap : afterGap false (Spot.written pos (' ' :: more)) =
      afterGap false (Spot.written (pos.advance ' ') more) := by
    rw [Spot.written_cons, afterGap]
    rfl
  unfold scan
  simp only [written, hgap]
  rfl

/-- A line break is scanned as a token. -/
theorem scan_newline : (written finish pos ('\n' :: more)).scan =
    (.ok ⟨.newline, "", pos⟩, written finish (pos.advance '\n') more) := by
  unfold scan
  simp only [written, afterGap_lexeme (.inl rfl) fun h => absurd h (by decide)]
  rfl

/-- Behind a gap the scan takes a lexeme. -/
theorem scan_lexeme (hblank : Text.isBlank c = false) (hcomment : c = '/' → more.head? ≠ some '/') :
    (written finish pos (c :: more)).scan =
      ((lexemeAt false ⟨.char c, pos⟩ (Spot.written (pos.advance c) more)).1,
        ⟨(lexemeAt false ⟨.char c, pos⟩ (Spot.written (pos.advance c) more)).2, finish, false⟩) := by
  unfold scan
  simp only [written, afterGap_lexeme (.inr hblank) hcomment]
  rfl

/-- A word is scanned as what it stands for. -/
theorem scan_word (hc : startsName c = true) (hcs : cs.all continuesName = true)
    (hmore : more.head?.any continuesName = false) :
    (written finish pos (c :: (cs ++ more))).scan =
      (.ok ⟨.ofWord (String.ofList (c :: cs)), String.ofList (c :: cs), pos⟩,
        written finish ((c :: cs).foldl Position.advance pos) more) := by
  have hne : ∀ d, startsName d = false → c ≠ d := by
    rintro d hd rfl
    rw [hc] at hd
    exact absurd hd (by decide)
  have hsign := not_sign hc (by decide)
  have hdigit : isDigit c = false := by
    cases hd : isDigit c with
    | false => rfl
    | true =>
      rw [isDigit, Bool.and_eq_true, decide_eq_true_eq, decide_eq_true_eq] at hd
      have hlt : c.toNat < 0x41 := Nat.lt_of_le_of_lt hd.2 (by decide)
      rw [not_startsName_of_lt hlt] at hc
      exact absurd hc (by decide)
  have hchar : (⟨.char c, pos⟩ : Spot).char = c := rfl
  rw [scan_lexeme (not_isBlank_of_startsName hc) fun h => absurd h (hne '/' (by decide))]
  have hlexeme : lexemeAt false ⟨.char c, pos⟩ (Spot.written (pos.advance c) (cs ++ more)) =
      word false ⟨.char c, pos⟩ (Spot.written (pos.advance c) (cs ++ more)) := by
    unfold lexemeAt
    simp only [hchar, hsign.1, hsign.2, hdigit, hc, beq_eq_false_iff_ne.mpr (hne '\n' (by decide)),
      beq_eq_false_iff_ne.mpr (hne '"' (by decide)), Bool.false_eq_true, if_false, if_true]
  rw [hlexeme, word_written (List.all_eq_true.mp hcs) hmore]
  rfl

/-- A digit starts a number. -/
theorem scan_digit (hc : isDigit c = true) :
    (written finish pos (c :: more)).scan =
      ((number false ⟨.char c, pos⟩ (Spot.written (pos.advance c) more)).1,
        ⟨(number false ⟨.char c, pos⟩ (Spot.written (pos.advance c) more)).2, finish, false⟩) := by
  have hne : ∀ d, isDigit d = false → c ≠ d := by
    rintro d hd rfl
    rw [hc] at hd
    exact absurd hd (by decide)
  have hsign := not_sign hc (by decide)
  have hblank : Text.isBlank c = false := by
    rw [isDigit, Bool.and_eq_true, decide_eq_true_eq, decide_eq_true_eq] at hc
    have hlow : 0x30 ≤ c.toNat := hc.1
    have hhigh : c.toNat ≤ 0x39 := hc.2
    cases hb : Text.isBlank c with
    | false => rfl
    | true =>
      have hmem : c.toNat ∈ Text.blankPoints := List.contains_iff_mem.mp hb
      simp only [Text.blankPoints, List.mem_cons, List.not_mem_nil, or_false] at hmem
      omega
  have hchar : (⟨.char c, pos⟩ : Spot).char = c := rfl
  rw [scan_lexeme hblank fun h => absurd h (hne '/' (by decide))]
  unfold lexemeAt
  simp only [hchar, hsign.1, hsign.2, hc, beq_eq_false_iff_ne.mpr (hne '\n' (by decide)),
    beq_eq_false_iff_ne.mpr (hne '"' (by decide)), Bool.false_eq_true, if_false, if_true]

/-- Digits are scanned as a whole number. -/
theorem scan_number (hc : isDigit c = true) (hcs : ∀ d ∈ cs, isDigit d = true)
    (hmore : Kind.integer.goesOn more = false) :
    (written finish pos (c :: (cs ++ more))).scan =
      (.ok ⟨.integer, String.ofList (c :: cs), pos⟩,
        written finish ((c :: cs).foldl Position.advance pos) more) := by
  rw [scan_digit hc, number, numberTail_digits hcs, numberTail_integer hmore, List.append_nil]
  rfl

/-- A string literal is scanned as the string it denotes. -/
theorem scan_literal {body value : List Char} (h : Denotes body value) (more : List Char) :
    (written finish pos ('"' :: (body ++ '"' :: more))).scan =
      (.ok ⟨.string, String.ofList value, pos⟩,
        written finish (('"' :: (body ++ ['"'])).foldl Position.advance pos) more) := by
  rw [scan_lexeme (by decide) fun h => absurd h (by decide)]
  have hlexeme : ∀ rest, lexemeAt false ⟨.char '"', pos⟩ rest = string false ⟨.char '"', pos⟩ rest :=
    fun _ => rfl
  rw [hlexeme, string, stringTail_denotes h]
  rfl

/-- A sign that cannot be extended is scanned as its kind. -/
theorem scan_plainSign (hblank : Text.isBlank c = false)
    (hcomment : c = '/' → more.head? ≠ some '/') (hbreak : c ≠ '\n')
    (hext : extensible? c = none) (hsign : sign? c = some k) :
    (written finish pos (c :: more)).scan =
      (.ok ⟨k, String.ofList [c], pos⟩, written finish (pos.advance c) more) := by
  have hchar : (⟨.char c, pos⟩ : Spot).char = c := rfl
  rw [scan_lexeme hblank hcomment]
  unfold lexemeAt
  simp only [hchar, hext, hsign, beq_eq_false_iff_ne.mpr hbreak, Bool.false_eq_true, if_false]
  unfold plainSign
  simp only [Bool.and_false, Bool.false_and, Bool.false_eq_true, if_false]
  rfl

/-- A sign that may be extended is scanned by looking at the next character. -/
theorem scan_extensibleSign {ext : Extensible} (hblank : Text.isBlank c = false)
    (hslash : c ≠ '/') (hbreak : c ≠ '\n') (hext : extensible? c = some ext) :
    (written finish pos (c :: more)).scan =
      ((extensibleSign false ext ⟨.char c, pos⟩ (Spot.written (pos.advance c) more)).1,
        ⟨(extensibleSign false ext ⟨.char c, pos⟩ (Spot.written (pos.advance c) more)).2, finish,
          false⟩) := by
  have hchar : (⟨.char c, pos⟩ : Spot).char = c := rfl
  rw [scan_lexeme hblank fun h => absurd h hslash]
  unfold lexemeAt
  simp only [hchar, hext, beq_eq_false_iff_ne.mpr hbreak, Bool.false_eq_true, if_false]

/-- A sign that is not extended is scanned as the kind it has alone. -/
theorem scan_alone {ext : Extensible} (hblank : Text.isBlank c = false)
    (hslash : c ≠ '/') (hbreak : c ≠ '\n') (hext : extensible? c = some ext)
    (halone : ext.alone = some k) (hmore : more.head? ≠ some ext.second) :
    (written finish pos (c :: more)).scan =
      (.ok ⟨k, String.ofList [c], pos⟩, written finish (pos.advance c) more) := by
  have hsecond : startsWith ext.second (Spot.written (pos.advance c) more) = false := by
    rw [Bool.eq_false_iff, ne_eq, startsWith_written]
    exact hmore
  rw [scan_extensibleSign hblank hslash hbreak hext, extensibleSign, Bool.false_and, hsecond,
    if_neg Bool.false_ne_true, if_neg Bool.false_ne_true, halone]
  rfl

/-- A sign that is extended is scanned as the kind of both characters. -/
theorem scan_extended {ext : Extensible} (hblank : Text.isBlank c = false)
    (hslash : c ≠ '/') (hbreak : c ≠ '\n') (hext : extensible? c = some ext) :
    (written finish pos (c :: ext.second :: more)).scan =
      (.ok ⟨ext.extended, String.ofList [c, ext.second], pos⟩,
        written finish ((pos.advance c).advance ext.second) more) := by
  have hsecond : startsWith ext.second
      (Spot.written (pos.advance c) (ext.second :: more)) = true := beq_self_eq_true _
  rw [scan_extensibleSign hblank hslash hbreak hext, extensibleSign, Bool.false_and, hsecond,
    if_neg Bool.false_ne_true, if_pos rfl]
  rfl

/-- A sign is scanned as its kind, if what follows does not go on with it. -/
theorem scan_sign (hk : k ∈ Kind.signs) (hmore : k.goesOn more = false) :
    (written finish pos (k.spelling.toList ++ more)).scan =
      (.ok ⟨k, k.spelling, pos⟩,
        written finish (k.spelling.toList.foldl Position.advance pos) more) := by
  have hnext : ∀ d, (∀ rest, k.goesOn (d :: rest) = true) → more.head? ≠ some d := by
    intro d hd hhead
    obtain ⟨rest, rfl⟩ := List.head?_eq_some_iff.mp hhead
    rw [hd rest] at hmore
    exact absurd hmore (by decide)
  simp only [Kind.signs, List.mem_cons, List.not_mem_nil, or_false] at hk
  rcases hk with rfl | rfl | rfl | rfl | rfl | rfl | rfl | rfl | rfl | rfl | rfl | rfl | rfl | rfl |
    rfl | rfl | rfl | rfl
  · exact scan_plainSign (by decide) (fun h => absurd h (by decide)) (by decide) rfl rfl
  · exact scan_alone (by decide) (by decide) (by decide) rfl rfl (hnext '>' fun _ => rfl)
  · exact scan_plainSign (by decide) (fun h => absurd h (by decide)) (by decide) rfl rfl
  · exact scan_plainSign (by decide) (fun _ => hnext '/' fun _ => rfl) (by decide) rfl rfl
  · exact scan_plainSign (by decide) (fun h => absurd h (by decide)) (by decide) rfl rfl
  · exact scan_plainSign (by decide) (fun h => absurd h (by decide)) (by decide) rfl rfl
  · exact scan_plainSign (by decide) (fun h => absurd h (by decide)) (by decide) rfl rfl
  · exact scan_alone (by decide) (by decide) (by decide) rfl rfl (hnext '=' fun _ => rfl)
  · exact scan_plainSign (by decide) (fun h => absurd h (by decide)) (by decide) rfl rfl
  · exact scan_plainSign (by decide) (fun h => absurd h (by decide)) (by decide) rfl rfl
  · exact scan_plainSign (by decide) (fun h => absurd h (by decide)) (by decide) rfl rfl
  · exact scan_alone (by decide) (by decide) (by decide) rfl rfl (hnext '=' fun _ => rfl)
  · exact scan_alone (by decide) (by decide) (by decide) rfl rfl (hnext '=' fun _ => rfl)
  · exact scan_extended (c := '=') (by decide) (by decide) (by decide) rfl
  · exact scan_extended (c := '!') (by decide) (by decide) (by decide) rfl
  · exact scan_extended (c := '>') (by decide) (by decide) (by decide) rfl
  · exact scan_extended (c := '<') (by decide) (by decide) (by decide) rfl
  · exact scan_extended (c := '-') (by decide) (by decide) (by decide) rfl

/-- A reserved word is scanned as its kind, if what follows does not go on with it. -/
theorem scan_reserved (hk : k ∈ Kind.reserved) (hmore : k.goesOn more = false) :
    (written finish pos (k.spelling.toList ++ more)).scan =
      (.ok ⟨k, k.spelling, pos⟩,
        written finish (k.spelling.toList.foldl Position.advance pos) more) := by
  have hword : k.isWord = true := by
    rw [Kind.isWord, List.contains_iff_mem.mpr hk, Bool.or_true]
  rw [goesOn_of_isWord hword] at hmore
  simp only [Kind.reserved, List.mem_cons, List.not_mem_nil, or_false] at hk
  rcases hk with rfl | rfl | rfl | rfl | rfl | rfl | rfl | rfl | rfl | rfl | rfl <;>
    exact scan_word (by decide) (by decide) hmore

/-- A name is scanned as an identifier, if what follows does not go on with it. -/
theorem scan_name {name : String} (hname : isName name = true)
    (hmore : Kind.identifier.goesOn more = false) :
    (written finish pos (name.toList ++ more)).scan =
      (.ok ⟨.identifier, name, pos⟩,
        written finish (name.toList.foldl Position.advance pos) more) := by
  unfold isName at hname
  cases hchars : name.toList with
  | nil => simp [hchars] at hname
  | cons c cs =>
    simp only [hchars, Bool.and_eq_true, beq_iff_eq] at hname
    obtain ⟨⟨hc, hcs⟩, hkind⟩ := hname
    have hspelled : String.ofList (c :: cs) = name := by rw [← hchars, String.ofList_toList]
    rw [goesOn_of_isWord rfl] at hmore
    rw [List.cons_append, scan_word hc hcs hmore, hspelled, hkind]

/-- A boolean is scanned as one, if what follows does not go on with it. -/
theorem scan_truth {value : String} (hvalue : value = "true" ∨ value = "false")
    (hmore : Kind.boolean.goesOn more = false) :
    (written finish pos (value.toList ++ more)).scan =
      (.ok ⟨.boolean, value, pos⟩,
        written finish (value.toList.foldl Position.advance pos) more) := by
  rw [goesOn_of_isWord rfl] at hmore
  rcases hvalue with rfl | rfl
  · exact scan_word (by decide) (by decide) hmore
  · exact scan_word (by decide) (by decide) hmore

/-- A whole number is scanned as one, if what follows does not go on with it. -/
theorem scan_integer {digits : String} (hdigits : Numeral.isWhole digits.toList = true)
    (hmore : Kind.integer.goesOn more = false) :
    (written finish pos (digits.toList ++ more)).scan =
      (.ok ⟨.integer, digits, pos⟩,
        written finish (digits.toList.foldl Position.advance pos) more) := by
  cases hchars : digits.toList with
  | nil => simp [hchars, Numeral.isWhole] at hdigits
  | cons c cs =>
    have hall : ∀ d ∈ c :: cs, isDigit d = true := by
      rw [hchars, Numeral.isWhole, Bool.and_eq_true, List.all_eq_true] at hdigits
      exact hdigits.2
    have hspelled : String.ofList (c :: cs) = digits := by rw [← hchars, String.ofList_toList]
    rw [List.cons_append, scan_number (hall c List.mem_cons_self)
      (fun d hd => hall d (List.mem_cons_of_mem c hd)) hmore, hspelled]

/-- A proper piece is scanned as its token, if what follows does not go on with it. -/
theorem scan_piece {value : String} (hp : (Piece.word k value).isProper = true)
    (hmore : k.goesOn more = false) :
    (written finish pos ((Piece.word k value).chars ++ more)).scan =
      (.ok ⟨k, value, pos⟩,
        written finish ((Piece.word k value).chars.foldl Position.advance pos) more) := by
  unfold Piece.isProper at hp
  split at hp
  next hpiece =>
    injection hpiece with hk hv
    subst hk hv
    exact scan_name hp hmore
  next hpiece =>
    injection hpiece with hk hv
    subst hk hv
    exact scan_integer hp hmore
  next hpiece =>
    injection hpiece with hk hv
    subst hk hv
    have h : (written finish pos ('"' :: (value.toList.flatMap Piece.escape ++ '"' :: more))).scan =
        (_, _) := scan_literal (Piece.denotes_escape value.toList) more
    rw [String.ofList_toList] at h
    show (written finish pos (('"' :: value.toList.flatMap Piece.escape ++ ['"']) ++ more)).scan = _
    rw [List.append_assoc]
    exact h
  next hpiece =>
    injection hpiece with hk hv
    subst hk hv
    rw [Bool.or_eq_true, beq_iff_eq, beq_iff_eq] at hp
    exact scan_truth hp hmore
  next hstring _ hpiece =>
    injection hpiece with hk hv
    subst hk hv
    rw [Bool.and_eq_true, List.contains_iff_mem, List.mem_append, beq_iff_eq] at hp
    obtain ⟨hk, rfl⟩ := hp
    have hchars := Piece.chars_fixed hstring
    rcases hk with hk | hk
    · exact hchars ▸ scan_reserved hk hmore
    · exact hchars ▸ scan_sign hk hmore
  all_goals simp_all

/-! ## The stream of a written source -/

/-- A stop ends the stream. -/
theorem stream_of_error {s left : Source} {h : Halt} (hs : s.scan = (.error h, left)) :
    s.stream = ⟨[], .error h⟩ := by
  rw [stream]
  split
  · rename_i heq
    rw [hs] at heq
    injection heq with heq
    injection heq with heq
    rw [heq]
  · rename_i heq
    rw [hs] at heq
    simp at heq

/-- The end of the input ends the stream. -/
theorem stream_of_end {s left : Source} {t : Token} (hs : s.scan = (.ok t, left))
    (ht : t.kind = .endOfInput) : s.stream = ⟨[], .ok t⟩ := by
  rw [stream]
  split
  · rename_i heq
    rw [hs] at heq
    simp at heq
  · rename_i heq
    rw [hs] at heq
    injection heq with heq
    injection heq with heq
    subst heq
    rw [dif_pos ht]

/-- A token is followed by the stream of what is left. -/
theorem stream_of_token {s left : Source} {t : Token} (hs : s.scan = (.ok t, left))
    (ht : t.kind ≠ .endOfInput) : s.stream = ⟨t :: left.stream.front, left.stream.final⟩ := by
  rw [stream]
  split
  · rename_i heq
    rw [hs] at heq
    simp at heq
  · rename_i heq
    rw [hs] at heq
    injection heq with heq hleft
    injection heq with heq
    subst heq hleft
    rw [dif_neg ht]

/-- Sources with the same first scan have the same stream. -/
theorem stream_congr {s s' : Source} (h : s.scan = s'.scan) : s.stream = s'.stream := by
  cases hs : s'.scan with
  | mk outcome left =>
    have hs' := h.trans hs
    cases outcome with
    | error e => rw [stream_of_error hs, stream_of_error hs']
    | ok t =>
      by_cases ht : t.kind = .endOfInput
      · rw [stream_of_end hs ht, stream_of_end hs' ht]
      · rw [stream_of_token hs ht, stream_of_token hs' ht]

/-- Blanks in front do not show in the stream but for places. -/
theorem stream_spaces (n : Nat) (more : List Char) :
    (written finish pos (List.replicate n ' ' ++ more)).stream =
      (written finish ((List.replicate n ' ').foldl Position.advance pos) more).stream := by
  induction n generalizing pos with
  | zero => rfl
  | succ n ih =>
    rw [List.replicate_succ, List.cons_append, stream_congr scan_space, ih, List.foldl_cons]

/-- The gap behind a piece does not show in the stream but for places. -/
theorem stream_gap (p : Piece) (rest : List Piece) (more : List Char) :
    (written finish pos (p.gap rest ++ more)).stream =
      (written finish ((p.gap rest).foldl Position.advance pos) more).stream := by
  have hgap : ∃ n, p.gap rest = List.replicate n ' ' := by
    unfold Piece.gap
    split <;> first | exact ⟨0, rfl⟩ | exact ⟨1, rfl⟩
  obtain ⟨n, hn⟩ := hgap
  rw [hn]
  exact stream_spaces n more

/-- A word other than the opening parenthesis is followed by a blank, a line break, or a sign that
ends it. -/
theorem head_after_word {value : String} (hk : k ≠ .leftParen) {rest : List Piece}
    (hrest : ∀ p ∈ rest, p.isProper = true) :
    ∃ e ∈ enders, ((Piece.word k value).gap rest ++ Piece.written rest).head? = some e := by
  have hsign : ∀ (j : Kind) (v : String) (more : List Piece) (c : Char),
      rest = .word j v :: more → j.spelling.toList = [c] →
      (Piece.word j v).isProper = ((Kind.reserved ++ Kind.signs).contains j && v == j.spelling) →
      j ≠ .string → (Piece.written rest).head? = some c := by
    rintro j v more c rfl hspelling hproper hstring
    have hword := hrest _ List.mem_cons_self
    rw [hproper, Bool.and_eq_true, beq_iff_eq] at hword
    rw [hword.2, Piece.written, Piece.chars_fixed hstring, hspelling]
    rfl
  unfold Piece.gap
  split
  · simp_all
  · exact ⟨'(', by decide, hsign .leftParen _ _ _ rfl rfl rfl (by decide)⟩
  · exact ⟨')', by decide, hsign .rightParen _ _ _ rfl rfl rfl (by decide)⟩
  · exact ⟨',', by decide, hsign .comma _ _ _ rfl rfl rfl (by decide)⟩
  · exact ⟨':', by decide, hsign .colon _ _ _ rfl rfl rfl (by decide)⟩
  · exact ⟨'\n', by decide, rfl⟩
  · exact ⟨' ', by decide, rfl⟩
  · simp_all

/-- Proper pieces that are written with their gaps are cut into their tokens. -/
theorem stream_written (ps : List Piece) (hps : ∀ p ∈ ps, p.isProper = true) :
    (written finish pos (Piece.written ps)).stream =
      ⟨Piece.tokens pos ps, .ok ⟨.endOfInput, "", finish⟩⟩ := by
  induction ps generalizing pos with
  | nil => exact stream_of_end rfl rfl
  | cons p rest ih =>
    obtain ⟨hp, hrest⟩ := List.forall_mem_cons.mp hps
    have hleft : ∀ place,
        (written finish place (p.gap rest ++ Piece.written rest)).stream =
          ⟨Piece.tokens ((p.gap rest).foldl Position.advance place) rest,
            .ok ⟨.endOfInput, "", finish⟩⟩ := by
      intro place
      rw [stream_gap, ih hrest]
    rw [Piece.written, Piece.tokens, List.foldl_append]
    cases p with
    | word k value =>
      -- what is written next cannot continue the word
      have hmore : k.goesOn ((Piece.word k value).gap rest ++ Piece.written rest) = false := by
        by_cases hk : k = .leftParen
        · rw [hk]
          cases (Piece.word .leftParen value).gap rest ++ Piece.written rest <;> rfl
        · have hend : ∃ e ∈ enders,
              ((Piece.word k value).gap rest ++ Piece.written rest).head? = some e :=
            head_after_word hk hrest
          obtain ⟨e, he, hhead⟩ := hend
          obtain ⟨more, hmore⟩ := List.head?_eq_some_iff.mp hhead
          rw [hmore]
          exact not_goesOn_of_mem_enders he k more
      have hend : k ≠ .endOfInput := by
        rintro rfl
        exact absurd hp (by simp [Piece.isProper, Kind.reserved, Kind.signs])
      rw [stream_of_token (scan_piece hp hmore) hend, hleft]
      rfl
    | newline =>
      have hscan : (written finish pos ('\n' :: (Piece.newline.gap rest ++ Piece.written rest))).scan =
          (.ok ⟨.newline, "", pos⟩, _) := scan_newline
      rw [Piece.chars, List.singleton_append, stream_of_token hscan (by simp), hleft]
      rfl
    | indent depth =>
      rw [Piece.chars, stream_spaces, hleft]
      rfl

end Source

/-- Reading what was written gives back its tokens, each at the place where it was written. -/
theorem TokenStream.ofText_written (ps : List Piece) (hps : ∀ p ∈ ps, p.isProper = true) :
    ∃ finish, TokenStream.ofText (Text.ofChars (Piece.written ps)) =
      ⟨Piece.tokens .start ps, .ok ⟨.endOfInput, "", finish⟩⟩ := by
  refine ⟨(Text.ofChars (Piece.written ps)).chars.foldl Position.advance .start, ?_⟩
  rw [TokenStream.ofText, Source.ofText, Text.runes_ofChars]
  exact Source.stream_written ps hps

end Offside
