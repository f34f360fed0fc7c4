import Mathlib.Logic.Function.Basic
import Offside.Proofs.Tree.BlankLines

/-!
# Only equality of columns matters

The grammar asks of two columns whether they are equal, and of nothing else about places. So the
tokens of a source may be put in other lines and columns, as long as different columns stay
different, and the tree or the fault comes out the same at the other places (`Parse.outcome_moved`).

The columns that are compared are those of tokens that start a line. This is what makes indentation
a matter of taste: if the lines of a program are indented otherwise, every line shifts by an amount
of its own, and the columns inside of lines need not stay equal or different. They do so where lines
start, if lines of one width get one width and those of different widths different ones
(`Text.Reindented`).
-/

set_option autoImplicit false

namespace Offside

namespace Position

/-- The place in another line and another column, each of which depends on the old one only. -/
def recast (g f : Int → Int) (p : Position) : Position := ⟨g p.line, f p.column⟩

/-- The place in the same line, as far to the right as that line shifts. -/
def shifted (shift : Int → Int) (p : Position) : Position := ⟨p.line, p.column + shift p.line⟩

/-- How the lines of a text shift if its first line does. -/
def firstLine (width : Int) (line : Int) : Int := if line = 0 then width else 0

/-- The place further to the right, if it stands in the first line. -/
def indented (width : Int) (p : Position) : Position := p.shifted (firstLine width)

/-- How the lines of a text shift if its upper and its lower part do, the lower one of which starts
behind the given line. -/
def stacked (last : Int) (upper lower : Int → Int) (line : Int) : Int :=
  if line ≤ last then upper line else lower (line - (last + 1))

/-- The column is a width, and becomes the width that stands for it. -/
def Widened (width : Nat → Nat) (f : Position → Position) (p : Position) : Prop :=
  ∃ k : Nat, p.column = k ∧ (f p).column = width k

/-- Columns that are changed one to one are kept apart. -/
theorem keepsColumns_recast (g : Int → Int) {f : Int → Int} (hf : Function.Injective f) :
    KeepsColumns (recast g f) :=
  fun _ _ => hf.eq_iff

/-- Indentations that are widened one to one are kept apart. -/
theorem keepsColumnsOn_widened {width : Nat → Nat} (hwidth : Function.Injective width)
    (f : Position → Position) : KeepsColumnsOn (Widened width f) f := by
  rintro p q ⟨k, hk, hfk⟩ ⟨l, hl, hfl⟩
  rw [hk, hl, hfk, hfl, Int.natCast_inj, Int.natCast_inj]
  exact hwidth.eq_iff

end Position

/-- If columns stay equal or different where lines start, tokens at other places give the same tree
or the same fault there. -/
theorem Parse.outcome_moved {P : Position → Prop} {f : Position → Position} {s : TokenStream}
    (hf : Position.KeepsColumnsOn P f) (hs : (Reading.ofStream s).Lined P) :
    (ofStream (s.moved f)).outcome = Parse.movedInside f (ofStream s).outcome := by
  have halike : (Reading.ofStream s).Alike P f (Reading.ofStream (s.moved f)) :=
    ⟨.map_moved f s.front, rfl, rfl, hs⟩
  have hlength : s.front.length = (s.moved f).front.length := (List.length_map _).symm
  exact outcome_of_alike hf halike (.inl hlength)

/-! ## Indented lines -/

/-- Spaces, tabs and carriage returns. -/
def Text.IsIndentation (t : Text) : Prop := ∀ b ∈ t, b = 0x20 ∨ b = 0x09 ∨ b = 0x0D

/-- What stands in one line behind its indentation: all of it is made into tokens, there is no line
break among them, and if there are any, the first one stands at the start. A string may hold line
feeds. -/
structure Text.IsLine (t : Text) : Prop where
  whole : (TokenStream.ofText t).halt? = none
  single : ∀ tok ∈ (TokenStream.ofText t).front, tok.isBreak = false
  flush : ∀ tok ∈ (TokenStream.ofText t).front.head?, tok.pos = .start

instance (t : Text) : Decidable t.IsIndentation :=
  List.decidableBAll (fun b => b = 0x20 ∨ b = 0x09 ∨ b = 0x0D) t

instance (t : Text) : Decidable t.IsLine :=
  decidable_of_iff
    ((TokenStream.ofText t).halt? = none ∧
      (∀ tok ∈ (TokenStream.ofText t).front, tok.isBreak = false) ∧
      ∀ tok ∈ (TokenStream.ofText t).front.head?, tok.pos = .start)
    ⟨fun h => ⟨h.1, h.2.1, h.2.2⟩, fun h => ⟨h.whole, h.single, h.flush⟩⟩

/-- In front of a line an indentation of the width `k` is replaced by one of the width `width k`. A
line without tokens may be indented in any way. -/
structure Text.Replaces (width : Nat → Nat) (body indent indent' : Text) : Prop where
  line : body.IsLine
  old : indent.IsIndentation
  new : indent'.IsIndentation
  width : (TokenStream.ofText body).front ≠ [] → indent'.length = width indent.length

instance (width : Nat → Nat) (body indent indent' : Text) :
    Decidable (Text.Replaces width body indent indent') :=
  decidable_of_iff
    (body.IsLine ∧ indent.IsIndentation ∧ indent'.IsIndentation ∧
      ((TokenStream.ofText body).front ≠ [] → indent'.length = width indent.length))
    ⟨fun h => ⟨h.1, h.2.1, h.2.2.1, h.2.2.2⟩, fun h => ⟨h.line, h.old, h.new, h.width⟩⟩

/-- The second text has the lines of the first one with other indentations. -/
inductive Text.Reindented (width : Nat → Nat) : Text → Text → Prop
  | last {body indent indent' : Text} (h : Replaces width body indent indent') :
      Reindented width (indent ++ body) (indent' ++ body)
  | line {body indent indent' t t' : Text} (h : Replaces width body indent indent')
      (more : Reindented width t t') :
      Reindented width (indent ++ body ++ lineFeed :: t) (indent' ++ body ++ lineFeed :: t')

namespace Position

/-- To indent twice is to indent by both widths. -/
theorem indented_indented (k l : Int) : indented l ∘ indented k = indented (k + l) := by
  funext p
  unfold Function.comp indented shifted firstLine
  by_cases hline : p.line = 0
  · simp [hline, Int.add_assoc]
  · simp [hline]

/-- To go forward behind an indentation is to go forward and then to the right. -/
theorem advance_indented {p : Position} (hp : 0 ≤ p.line) (width : Int) (c : Char) :
    (p.indented width).advance c = (p.advance c).indented width := by
  unfold advance indented shifted firstLine
  by_cases hc : c = '\n'
  · have hline : p.line + 1 ≠ 0 := by omega
    simp [hc, hline]
  · simp only [hc, if_false, mk.injEq, true_and]
    omega

/-- To go forward never leads above the first line. -/
theorem line_advance_nonneg {p : Position} (hp : 0 ≤ p.line) (c : Char) :
    0 ≤ (p.advance c).line := by
  unfold advance
  split
  · show 0 ≤ p.line + 1
    omega
  · exact hp

/-- To go forward over a text behind an indentation is to go forward over it and then to the right.
-/
theorem foldl_advance_indented {p : Position} (hp : 0 ≤ p.line) (width : Int) (cs : List Char) :
    cs.foldl advance (p.indented width) = (cs.foldl advance p).indented width := by
  induction cs generalizing p with
  | nil => rfl
  | cons c cs ih =>
    rw [List.foldl_cons, List.foldl_cons, advance_indented hp, ih (line_advance_nonneg hp c)]

section Stacked

variable {last : Int} {upper lower : Int → Int} {p : Position}

/-- The lines of the upper text are shifted as in that text. -/
theorem shifted_stacked_upper (hp : p.line ≤ last) :
    p.shifted (stacked last upper lower) = p.shifted upper := by
  unfold shifted stacked
  rw [if_pos hp]

/-- The lines of the lower text are shifted as in that text. -/
theorem shifted_stacked_lower (hp : 0 ≤ p.line) :
    (p.below (last + 1)).shifted (stacked last upper lower) =
      (p.shifted lower).below (last + 1) := by
  have hbelow : ¬ p.line + (last + 1) ≤ last := by omega
  have hline : p.line + (last + 1) - (last + 1) = p.line := by omega
  unfold shifted stacked below
  rw [if_neg hbelow, hline]

end Stacked

end Position

/-- Characters behind an indentation are all further to the right. -/
theorem Spot.written_indented {p : Position} (hp : 0 ≤ p.line) (width : Int) (cs : List Char) :
    written (p.indented width) cs = (written p cs).map (Spot.moved (.indented width)) := by
  induction cs generalizing p with
  | nil => rfl
  | cons c cs ih =>
    rw [written_cons, written_cons, List.map_cons, Position.advance_indented hp,
      ih (Position.line_advance_nonneg hp c)]
    rfl

/-- An indentation has no line feed in it. -/
theorem Text.IsIndentation.count_lineFeed {t : Text} (h : t.IsIndentation) :
    t.count lineFeed = 0 := by
  rw [List.count_eq_zero]
  intro hmem
  rcases h lineFeed hmem with hb | hb | hb <;> simp [lineFeed] at hb

namespace TokenStream

/-- A blank in front of a text shifts its first line. -/
theorem ofText_blank {b : UInt8} (hb : b = 0x20 ∨ b = 0x09 ∨ b = 0x0D) (t : Text) :
    ofText (b :: t) = (ofText t).moved (.indented 1) := by
  obtain ⟨c, hc, hblank, hbreak⟩ : ∃ c, String.utf8EncodeChar c = [b] ∧
      Text.isBlank c = true ∧ c ≠ '\n' := by
    rcases hb with rfl | rfl | rfl
    · exact ⟨' ', by decide⟩
    · exact ⟨'\t', by decide⟩
    · exact ⟨'\r', by decide⟩
  have hstart : 0 ≤ (Position.behind []).line := Int.le_refl 0
  have hplace : (Position.behind []).advance c = (Position.behind []).indented 1 := by
    unfold Position.advance
    rw [if_neg hbreak]
    rfl
  have hfinish : Position.behind (c :: t.chars) = (Position.behind t.chars).indented 1 := by
    have hwhole := Position.foldl_advance_behind [] (c :: t.chars)
    have hrest := Position.foldl_advance_behind [] t.chars
    rw [List.foldl_cons, hplace, Position.foldl_advance_indented hstart, hrest] at hwhole
    exact hwhole.symm
  have hgap : Gap t.chars [c] := .blank hblank hbreak .nil
  have hscan : (Source.written (.behind (c :: t.chars)) (.behind []) (c :: t.chars)).scan =
      (Source.written (.behind (c :: t.chars)) ((Position.behind []).advance c) t.chars).scan :=
    Source.scan_gap hgap
  have hsource : Source.written (.behind (c :: t.chars)) ((Position.behind []).advance c) t.chars =
      (Source.written (.behind t.chars) (.behind []) t.chars).moved (.indented 1)
        (Spot.moved (.indented 1)) := by
    unfold Source.written Source.moved
    rw [hplace, hfinish, Spot.written_indented hstart]
  rw [ofText_eq_written, Text.chars_ascii hc, Source.stream_congr hscan, hsource,
    Source.stream_moved (Spot.moves_moved _) _ rfl, ofText_eq_written]

/-- An indentation moves the tokens of the first line to the right. -/
theorem ofText_indented {indent : Text} (h : indent.IsIndentation) (t : Text) :
    ofText (indent ++ t) = (ofText t).moved (.indented indent.length) := by
  induction indent with
  | nil =>
    have hstay : Position.indented (0 : Nat) = id := by
      funext p
      simp [Position.indented, Position.shifted, Position.firstLine]
    rw [List.nil_append, List.length_nil, hstay, moved_id]
  | cons b indent ih =>
    have hrest : Text.IsIndentation indent := fun c hc => h c (List.mem_cons_of_mem b hc)
    rw [List.cons_append, ofText_blank (h b List.mem_cons_self), ih hrest, moved_moved,
      Position.indented_indented, List.length_cons]
    rfl

/-- The tokens of a text stand in its lines. -/
theorem line_of_mem_front {a : Text} {t : Token} (ht : t ∈ (ofText a).front) :
    0 ≤ t.pos.line ∧ t.pos.line ≤ a.count lineFeed := by
  -- a move that leaves just these lines alone leaves all tokens alone
  let off : Position → Position := fun p =>
    if 0 ≤ p.line ∧ p.line ≤ a.count lineFeed then p else ⟨p.line, p.column + 1⟩
  have hstay : (ofText a).moved off = (ofText a).moved id := by
    apply ofText_moved_congr
    intro p hlow hhigh
    exact if_pos ⟨hlow, hhigh⟩
  have hsame : t.moved off = t :=
    List.map_inj_left.mp (congrArg front hstay) t ht
  by_contra hline
  have hcolumn : (off t.pos).column = t.pos.column + 1 := by
    show (if _ then _ else _ : Position).column = _
    rw [if_neg hline]
  have hpos : off t.pos = t.pos := congrArg Token.pos hsame
  rw [hpos] at hcolumn
  omega

end TokenStream

/-! ## Where lines start -/

namespace Token.Lined

variable {P Q : Position → Prop} {afterBreak : Bool} {ts us : List Token}

/-- What holds of the places where lines start may be weakened. -/
theorem imp (h : Lined P afterBreak ts) (himp : ∀ t ∈ ts, P t.pos → Q t.pos) :
    Lined Q afterBreak ts := by
  induction ts generalizing afterBreak with
  | nil => trivial
  | cons t ts ih =>
    refine ⟨fun hline ht => himp t List.mem_cons_self (h.1 hline ht), ?_⟩
    exact ih h.2 fun u hu => himp u (List.mem_cons_of_mem t hu)

/-- What holds directly behind a line break holds elsewhere too. -/
theorem of_true (h : Lined P true ts) : Lined P afterBreak ts := by
  cases ts with
  | nil => trivial
  | cons t ts => exact ⟨fun _ => h.1 rfl, h.2⟩

/-- Two lists with a line break between them start their lines where each of them does. -/
theorem append (hts : Lined P afterBreak ts) {newline : Token} (hnewline : newline.isBreak = true)
    (hus : Lined P true us) : Lined P afterBreak (ts ++ newline :: us) := by
  induction ts generalizing afterBreak with
  | nil => exact ⟨fun _ h => absurd (h.symm.trans hnewline) Bool.false_ne_true, hus.of_true⟩
  | cons t ts ih => exact ⟨hts.1, ih hts.2⟩

/-- Tokens that are moved start their lines at the moved places. -/
theorem map_moved {f : Position → Position} (h : Lined (fun p => P (f p)) afterBreak ts) :
    Lined P afterBreak (ts.map (Token.moved f)) := by
  induction ts generalizing afterBreak with
  | nil => trivial
  | cons t ts ih => exact ⟨h.1, ih h.2⟩

/-- Inside of a line no line starts. -/
theorem of_unbroken (h : ∀ t ∈ ts, t.isBreak = false) : Lined P false ts := by
  induction ts with
  | nil => trivial
  | cons t ts ih =>
    refine ⟨fun hline => absurd hline Bool.false_ne_true, ?_⟩
    rw [h t List.mem_cons_self]
    exact ih fun u hu => h u (List.mem_cons_of_mem t hu)

/-- Where there are no line breaks, a line starts with the first token only. -/
theorem of_single (hsingle : ∀ t ∈ ts, t.isBreak = false) (hhead : ∀ t ∈ ts.head?, P t.pos) :
    Lined P true ts := by
  cases ts with
  | nil => trivial
  | cons t ts =>
    have hrest : ∀ u ∈ ts, u.isBreak = false := fun u hu => hsingle u (List.mem_cons_of_mem t hu)
    refine ⟨fun _ _ => hhead t rfl, ?_⟩
    rw [hsingle t List.mem_cons_self]
    exact of_unbroken hrest

end Token.Lined

/-! ## Texts with other indentations -/

namespace TokenStream

variable {width : Nat → Nat}

section Line

variable {body indent indent' : Text} (h : Text.Replaces width body indent indent')
include h

/-- If a line is indented otherwise, all its tokens shift. -/
theorem ofText_replaced : ofText (indent' ++ body) =
    (ofText (indent ++ body)).moved (.indented (indent'.length - indent.length)) := by
  have hwidth : (indent.length : Int) + (indent'.length - indent.length) = indent'.length := by
    omega
  rw [ofText_indented h.old, ofText_indented h.new, moved_moved, Position.indented_indented, hwidth]

/-- A line whose indentation is replaced starts in the widened column. -/
theorem lined_replaced :
    Token.Lined (Position.Widened width (.indented (indent'.length - indent.length))) true
      (ofText (indent ++ body)).front := by
  rw [ofText_indented h.old]
  apply Token.Lined.map_moved
  apply Token.Lined.of_single h.line.single
  intro t ht
  have hsome : (ofText body).front ≠ [] := by
    intro hnil
    rw [hnil] at ht
    simp at ht
  have hwidth := h.width hsome
  rw [h.line.flush t ht]
  refine ⟨indent.length, ?_, ?_⟩
  · show (0 : Int) + indent.length = indent.length
    omega
  · show (0 : Int) + indent.length + (indent'.length - indent.length) = width indent.length
    omega

/-- A line behind an indentation is cut into tokens. -/
theorem exists_final_indented : ∃ e, (ofText (indent ++ body)).final = .ok e := by
  obtain ⟨e, he, -⟩ := exists_toList h.line.whole
  rw [ofText_indented h.old]
  exact ⟨e.moved _, congrArg (Scan.moved _) he⟩

end Line

section Joined

variable {a t : Text} {e : Token} {upper lower : Int → Int} (he : (ofText a).final = .ok e)
include he

/-- If two texts shift in their lines, so do the two with a line break between them. -/
theorem ofText_stacked {a' t' : Text} (ha : ofText a' = (ofText a).moved (.shifted upper))
    (ht : ofText t' = (ofText t).moved (.shifted lower))
    (hcount : a'.count lineFeed = a.count lineFeed) :
    ofText (a' ++ lineFeed :: t') = (ofText (a ++ lineFeed :: t)).moved
      (.shifted (Position.stacked (a.count lineFeed) upper lower)) := by
  have he' : (ofText a').final = .ok (e.moved (.shifted upper)) := by
    rw [ha]
    exact congrArg (Scan.moved _) he
  have habove : (ofText a).moved (.shifted (Position.stacked (a.count lineFeed) upper lower)) =
      (ofText a).moved (.shifted upper) := by
    apply ofText_moved_congr
    intro p _ hline
    exact Position.shifted_stacked_upper hline
  have hbelow : ((ofText t).moved (.below (a.count lineFeed + 1))).moved
      (.shifted (Position.stacked (a.count lineFeed) upper lower)) =
        ((ofText t).moved (.shifted lower)).moved (.below (a.count lineFeed + 1)) := by
    rw [moved_moved, moved_moved]
    apply ofText_moved_congr
    intro p hline _
    exact Position.shifted_stacked_lower hline
  have hbreak : (e.moved (.shifted (Position.stacked (a.count lineFeed) upper lower))).pos =
      (e.moved (.shifted upper)).pos := by
    have hend := congrArg final habove
    unfold moved at hend
    rw [he] at hend
    exact congrArg Token.pos (Except.ok.inj hend)
  rw [ofText_joined he', ofText_joined he, hcount, ht, ← hbelow, ha, ← habove, ← hbreak]
  unfold moved
  rw [List.map_append, List.map_cons]
  rfl

/-- In two texts with a line feed between them, lines start in the widened columns if they do in
both. -/
theorem lined_stacked
    (hupper : Token.Lined (Position.Widened width (.shifted upper)) true (ofText a).front)
    (hlower : Token.Lined (Position.Widened width (.shifted lower)) true (ofText t).front) :
    Token.Lined
      (Position.Widened width (.shifted (Position.stacked (a.count lineFeed) upper lower))) true
      (ofText (a ++ lineFeed :: t)).front := by
  rw [ofText_joined he]
  apply Token.Lined.append
  · refine hupper.imp fun u hu hwidened => ?_
    obtain ⟨k, hk, hwidth⟩ := hwidened
    rw [← Position.shifted_stacked_upper (line_of_mem_front hu).2] at hwidth
    exact ⟨k, hk, hwidth⟩
  · rfl
  · apply Token.Lined.map_moved
    refine hlower.imp fun u hu hwidened => ?_
    obtain ⟨k, hk, hwidth⟩ := hwidened
    refine ⟨k, hk, ?_⟩
    rw [Position.shifted_stacked_lower (line_of_mem_front hu).1]
    exact hwidth

end Joined

/-- If the lines of a text are indented otherwise, each line shifts by one amount, and where lines
start the widths are the new ones. -/
theorem ofText_reindented {t t' : Text} (h : Text.Reindented width t t') :
    ∃ shift, ofText t' = (ofText t).moved (.shifted shift) ∧
      Token.Lined (Position.Widened width (.shifted shift)) true (ofText t).front := by
  induction h with
  | last hline => exact ⟨Position.firstLine _, ofText_replaced hline, lined_replaced hline⟩
  | @line body indent indent' t t' hline _ ih =>
    obtain ⟨shift, htokens, hlined⟩ := ih
    obtain ⟨e, he⟩ := exists_final_indented hline
    have hcount : (indent' ++ body).count lineFeed = (indent ++ body).count lineFeed := by
      rw [List.count_append, List.count_append, hline.old.count_lineFeed, hline.new.count_lineFeed]
    exact ⟨_, ofText_stacked he (ofText_replaced hline) htokens hcount,
      lined_stacked he (lined_replaced hline) hlined⟩

end TokenStream

/-- A text whose indentations are replaced one to one has the same outcome but for places. -/
theorem Parse.outcome_reindented {width : Nat → Nat} (hwidth : Function.Injective width)
    {t t' : Text} (h : Text.Reindented width t t') :
    ∃ shift, (Parse.ofText t').outcome =
      Parse.movedInside (.shifted shift) (Parse.ofText t).outcome := by
  obtain ⟨shift, htokens, hlined⟩ := TokenStream.ofText_reindented h
  have hstart : (Reading.ofStream (.ofText t)).Lined (Position.Widened width (.shifted shift)) := by
    refine ⟨hlined.of_true, fun e he => .inl ?_⟩
    rw [Source.stream_final rfl he]
  refine ⟨shift, ?_⟩
  rw [Parse.ofText, htokens]
  exact Parse.outcome_moved (Position.keepsColumnsOn_widened hwidth _) hstart

/-- Only equality of columns matters. Tokens in other lines and columns, with different columns for
different ones, give the same tree or the same fault at the other places. So does a text with other
indentations: as long as lines of one width get one width and those of different widths different
ones, nothing changes but how far the tokens of each line stand to the right. -/
theorem only_equality_of_columns_matters :
    (∀ (s : TokenStream) (g f : Int → Int), Function.Injective f →
      (Parse.ofStream (s.moved (.recast g f))).outcome =
        Parse.movedInside (.recast g f) (Parse.ofStream s).outcome) ∧
    ∀ (width : Nat → Nat) (t t' : Text), Function.Injective width → Text.Reindented width t t' →
      ∃ shift, (Parse.ofText t').outcome =
        Parse.movedInside (.shifted shift) (Parse.ofText t).outcome := by
  constructor
  · intro s g f hf
    have hcolumns := Position.keepsColumns_recast g hf
    exact Parse.outcome_moved (hcolumns.on _) (Reading.lined_everywhere _)
  · intro width t t' hwidth h
    exact Parse.outcome_reindented hwidth h

/-- A bar further to the left stays out of a selection if left and right are exchanged and all lines
become one. A loop whose lines are indented by three times as much and one more is read as before,
with its empty line left as it is. -/
theorem only_equality_of_columns_matters_reversed :
    (Parse.ofText (.ofString "match x:\n  | 1 -> 2\n | 2 -> 3")).outcome =
        .error (.fault (.unexpected .bar Grammar.atomKinds "" ⟨2, 1⟩)) ∧
      (Parse.ofStream ((TokenStream.ofText (.ofString "match x:\n  | 1 -> 2\n | 2 -> 3")).moved
        (.recast (fun _ => 7) fun column => -column))).outcome =
          .error (.fault (.unexpected .bar Grammar.atomKinds "" ⟨7, -1⟩)) ∧
      Text.Reindented (fun k => 3 * k + 1) (.ofString "while x:\n  y = 1\n\n  z // end")
        (.ofString " while x:\n       y = 1\n\n       z // end") ∧
      (Parse.ofText (.ofString "while x:\n  y = 1\n\n  z // end")).outcome.isOk = true ∧
      ∃ shift, (Parse.ofText (.ofString " while x:\n       y = 1\n\n       z // end")).outcome =
        Parse.movedInside (.shifted shift)
          (Parse.ofText (.ofString "while x:\n  y = 1\n\n  z // end")).outcome := by
  obtain ⟨htokens, htexts⟩ := only_equality_of_columns_matters
  have hfault : (Parse.ofText (.ofString "match x:\n  | 1 -> 2\n | 2 -> 3")).outcome =
      .error (.fault (.unexpected .bar Grammar.atomKinds "" ⟨2, 1⟩)) :=
    Parse.outcome_eq_error_iff_stop?.mpr (by decide +kernel)
  have hexchanged := htokens (.ofText (.ofString "match x:\n  | 1 -> 2\n | 2 -> 3")) (fun _ => 7)
    (fun column => -column) fun _ _ h => Int.neg_inj.mp h
  have hheader : Text.Replaces (fun k => 3 * k + 1) (.ofString "while x:") [] (.ofString " ") := by
    decide +kernel
  have hfirst : Text.Replaces (fun k => 3 * k + 1) (.ofString "y = 1") (.ofString "  ")
      (.ofString "       ") := by decide +kernel
  have hempty : Text.Replaces (fun k => 3 * k + 1) [] [] [] := by decide +kernel
  have hlast : Text.Replaces (fun k => 3 * k + 1) (.ofString "z // end") (.ofString "  ")
      (.ofString "       ") := by decide +kernel
  have hloop : Text.Reindented (fun k => 3 * k + 1)
      (.ofString "while x:\n  y = 1\n\n  z // end")
      (.ofString " while x:\n       y = 1\n\n       z // end") := by
    have hlines := Text.Reindented.line hheader (.line hfirst (.line hempty (.last hlast)))
    convert hlines using 1 <;> decide +kernel
  have hwidth : Function.Injective fun k : Nat => 3 * k + 1 := by
    intro k l h
    dsimp only at h
    omega
  refine ⟨hfault, ?_, hloop, by decide +kernel, htexts _ _ _ hwidth hloop⟩
  rw [hexchanged]
  exact congrArg (Parse.movedInside _) hfault

end Offside
