import Offside.Proofs.Token.Spelling
import Offside.Proofs.Tree.Ensures

/-!
# Reading pieces that were written

A reading shows pieces if their tokens are to come, and then the end of the source. The rules below
say what the pieces of the grammar that look at tokens and take them do with such a reading. None of
them spends fuel; for the others it is enough to know what they give unless their fuel is used up,
since elsewhere it is shown never to be (`Parse.ofText_sound`).
-/

set_option autoImplicit false

namespace Offside

/-- The kind of the first token of pieces, which is the end if there is none. -/
def Piece.nextKind : List Piece → Kind
  | [] => .endOfInput
  | .word k _ :: _ => k
  | .newline :: _ => .newline
  | .indent _ :: rest => nextKind rest

/-- There are no pieces, or they start with a line of the given depth or less. -/
inductive Piece.Within (depth : Nat) : List Piece → Prop where
  | nil : Within depth []
  | line {d : Nat} {k : Kind} {value : String} {rest : List Piece} (hd : d ≤ depth)
      (hk : k ≠ .newline) : Within depth (.indent d :: .word k value :: rest)

/-- Blanks lead to the right, one column each. -/
theorem Position.column_foldl_spaces (n : Nat) (pos : Position) :
    ((List.replicate n ' ').foldl advance pos).column = pos.column + n := by
  induction n generalizing pos with
  | zero => simp
  | succ n ih =>
    rw [List.replicate_succ, List.foldl_cons, ih]
    show pos.column + 1 + n = pos.column + (n + 1 : Nat)
    omega

/-- What is within a depth does not start with a line break. -/
theorem Piece.Within.nextKind_ne {depth : Nat} {ps : List Piece} (h : Within depth ps) :
    nextKind ps ≠ .newline := by
  cases h with
  | nil => decide
  | line hd hk => exact hk

/-- What is within a depth is within a larger one. -/
theorem Piece.Within.mono {d depth : Nat} {ps : List Piece} (h : Within d ps) (hle : d ≤ depth) :
    Within depth ps := by
  cases h with
  | nil => exact .nil
  | line hd hk => exact .line (Nat.le_trans hd hle) hk

namespace Reading

/-- A look at the stream shows a token of the kind. -/
def Faces (r : Reading) (k : Kind) : Prop := ∃ t, r.next? = some t ∧ t.kind = k

/-- The tokens to come are those of the pieces, the first of which is written at the place, and then
the source ends. -/
structure ShowsAt (r : Reading) (pos : Position) (ps : List Piece) : Prop where
  front : r.front = Piece.tokens pos ps
  final : ∃ t, r.final = .ok t ∧ t.kind = .endOfInput

/-- The pieces are to come. -/
def Shows (r : Reading) (ps : List Piece) : Prop := ∃ pos, r.ShowsAt pos ps

/-- The pieces are to come, and the first of them starts a line. -/
def ShowsLine (r : Reading) (ps : List Piece) : Prop := ∃ pos, pos.column = 0 ∧ r.ShowsAt pos ps

/-- A line is over, or its end is to come, and after that the pieces. -/
def Ended (r : Reading) (ps : List Piece) : Prop :=
  (r.afterBreak = true ∧ r.ShowsLine ps) ∨ (r.afterBreak = false ∧ r.Shows (.newline :: ps))

variable {r : Reading} {ps : List Piece}

/-- What is shown at the start of a line is shown. -/
theorem ShowsLine.shows (h : r.ShowsLine ps) : r.Shows ps := by
  obtain ⟨pos, -, h⟩ := h
  exact ⟨pos, h⟩

/-- Indentation has no token. -/
theorem Shows.of_indent {d : Nat} (h : r.Shows (.indent d :: ps)) : r.Shows ps := by
  obtain ⟨pos, hfront, hfinal⟩ := h
  exact ⟨_, hfront, hfinal⟩

/-- The next token is that of the first piece which has one. -/
theorem Shows.next? (h : r.Shows ps) : r.Faces (Piece.nextKind ps) := by
  obtain ⟨pos, hfront, t, hfinal, ht⟩ := h
  unfold Faces Reading.next?
  rw [hfront, hfinal]
  clear hfront
  induction ps generalizing pos with
  | nil => exact ⟨t, rfl, ht⟩
  | cons p rest ih =>
    cases p with
    | word k value => exact ⟨_, rfl, rfl⟩
    | newline => exact ⟨_, rfl, rfl⟩
    | indent d => exact ih _

end Reading

namespace Grammar

open Reading Piece

/-- The piece of the grammar gives a result with the property, unless its fuel is used up. -/
def Yields {α : Type} (p : Grammar α) (r : Reading) (Q : α → Reading → Prop) : Prop :=
  Ensures (· = .outOfFuel) p r Q

end Grammar

namespace Reading.Faces

open Grammar

variable {α : Type} {r : Reading} {k : Kind}

/-- A look at the next token yields one of the kind that is faced. -/
theorem yields_peek (h : r.Faces k) :
    Yields peek r fun t r' => r' = r ∧ r.next? = some t ∧ t.kind = k := by
  obtain ⟨t, hnext, ht⟩ := h
  unfold Reading.next? at hnext
  unfold Yields Ensures peek Reading.next?
  cases hf : r.front with
  | cons u rest =>
    simp only [hf, Option.some.injEq] at hnext
    exact ⟨rfl, rfl, hnext ▸ ht⟩
  | nil =>
    cases hfin : r.final with
    | error e => simp [hf, hfin] at hnext
    | ok u =>
      simp only [hf, hfin, Option.some.injEq] at hnext
      exact ⟨rfl, rfl, hnext ▸ ht⟩

/-- A look at the kind of the next token tells whether the kind that is faced is among those asked
for. -/
theorem yields_peekIs (h : r.Faces k) (kinds : List Kind) :
    Yields (peekIs kinds) r fun b r' => r' = r ∧ (b = true ↔ k ∈ kinds) := by
  refine ensures_bind h.yields_peek ?_
  rintro t r' ⟨rfl, -, ht⟩
  refine ensures_pure ⟨rfl, ?_⟩
  rw [← ht]
  exact List.contains_iff_mem

/-- Where a kind that is asked for is faced, the first case is taken. -/
theorem yields_if_peekIs {p q : Grammar α} {Q : α → Reading → Prop} {kinds : List Kind}
    (h : r.Faces k) (hk : k ∈ kinds) (hp : Yields p r Q) :
    Yields (do if ← peekIs kinds then p else q) r Q := by
  refine ensures_bind (h.yields_peekIs kinds) ?_
  rintro b r' ⟨rfl, hb⟩
  rw [if_pos (hb.mpr hk)]
  exact hp

/-- Where no kind that is asked for is faced, the second case is taken. -/
theorem yields_unless_peekIs {p q : Grammar α} {Q : α → Reading → Prop} {kinds : List Kind}
    (h : r.Faces k) (hk : k ∉ kinds) (hq : Yields q r Q) :
    Yields (do if ← peekIs kinds then p else q) r Q := by
  refine ensures_bind (h.yields_peekIs kinds) ?_
  rintro b r' ⟨rfl, hb⟩
  rw [if_neg fun hbk => hk (hb.mp hbk)]
  exact hq

/-- A line that is over is not continued. -/
theorem yields_continuesWith (h : r.Faces k) (kinds : List Kind) :
    Yields (continuesWith kinds) r fun b r' =>
      r' = r ∧ (b = true ↔ r.afterBreak = false ∧ k ∈ kinds) := by
  show Yields (if r.afterBreak then pure false else peekIs kinds) r _
  cases hbreak : r.afterBreak with
  | true => exact ensures_pure ⟨rfl, by simp⟩
  | false =>
    refine ensures_mono (h.yields_peekIs kinds) ?_
    rintro b r' ⟨rfl, hb⟩
    exact ⟨rfl, by simp [hb]⟩

/-- Where a kind that is asked for is faced on the line, the first case is taken. -/
theorem yields_if_continuesWith {p q : Grammar α} {Q : α → Reading → Prop}
    {kinds : List Kind} (h : r.Faces k) (hline : r.afterBreak = false) (hk : k ∈ kinds)
    (hp : Yields p r Q) : Yields (do if ← continuesWith kinds then p else q) r Q := by
  refine ensures_bind (h.yields_continuesWith kinds) ?_
  rintro b r' ⟨rfl, hb⟩
  rw [if_pos (hb.mpr ⟨hline, hk⟩)]
  exact hp

/-- Where the line is over or no kind that is asked for is faced, the second case is taken. -/
theorem yields_unless_continuesWith {p q : Grammar α} {Q : α → Reading → Prop}
    {kinds : List Kind} (h : r.Faces k) (hk : r.afterBreak = true ∨ k ∉ kinds)
    (hq : Yields q r Q) : Yields (do if ← continuesWith kinds then p else q) r Q := by
  refine ensures_bind (h.yields_continuesWith kinds) ?_
  rintro b r' ⟨rfl, hb⟩
  have hnot : ¬ b = true := by
    rw [hb]
    rintro ⟨hline, hmem⟩
    rcases hk with hbreak | hk
    · rw [hbreak] at hline
      exact absurd hline (by decide)
    · exact hk hmem
  rw [if_neg hnot]
  exact hq

/-- Where no line break is faced, none is skipped. -/
theorem yields_skipBreaks (h : r.Faces k) (hk : k ≠ .newline) :
    Yields skipBreaks r fun _ r' => r' = r := by
  have hpeek := h.yields_peek
  obtain ⟨t, hnext, ht⟩ := h
  have hsame : { r with
      front := r.front.dropWhile Token.isBreak
      afterBreak := r.afterBreak || r.front.head?.any Token.isBreak } = r := by
    cases hf : r.front with
    | nil =>
      rw [List.dropWhile_nil, List.head?_nil, Option.any_none, Bool.or_false, ← hf]
    | cons u rest =>
      unfold Reading.next? at hnext
      simp only [hf, Option.some.injEq] at hnext
      have hbreak : u.isBreak = false := by
        rw [Token.isBreak, hnext, ht]
        exact beq_eq_false_iff_ne.mpr hk
      rw [List.dropWhile_cons_of_neg (ne_true_of_eq_false hbreak), List.head?_cons, Option.any_some,
        hbreak, Bool.or_false, ← hf]
  refine ensures_bind (P := fun _ r' => r' = r) hsame ?_
  rintro - r' rfl
  refine ensures_bind hpeek ?_
  rintro t r' ⟨rfl, -⟩
  exact ensures_pure rfl

end Reading.Faces

namespace Grammar

open Reading Piece

variable {α : Type} {r : Reading} {ps : List Piece} {k : Kind} {value : String}

/-- Taking a token that is no line break leaves the tokens after it, on the same line. -/
theorem yields_next_of_front {t : Token} {more : List Token} (h : r.front = t :: more)
    (hk : t.kind ≠ .newline) :
    Yields next r fun u r' => u = t ∧ r' = { r with front := more, afterBreak := false } := by
  have hbreak : t.isBreak = false := beq_eq_false_iff_ne.mpr hk
  unfold Yields Ensures next
  rw [h]
  dsimp only
  rw [hbreak]
  exact ⟨rfl, rfl⟩

/-- The next token is taken if it is of the kinds. -/
theorem yields_expect_of_front {t : Token} {more : List Token} {kinds : List Kind}
    (h : r.front = t :: more) (hk : t.kind ≠ .newline) (hkinds : t.kind ∈ kinds) :
    Yields (expect kinds) r fun u r' =>
      u = t ∧ r' = { r with front := more, afterBreak := false } := by
  refine ensures_bind (yields_next_of_front h hk) ?_
  rintro u r' ⟨rfl, rfl⟩
  have hone : u.isOneOf kinds = true := List.contains_iff_mem.mpr hkinds
  rw [if_pos hone]
  exact ensures_pure ⟨rfl, rfl⟩

/-- A look at the next token yields the token of the first piece. -/
theorem yields_peek (h : r.Shows ps) :
    Yields peek r fun t r' => r' = r ∧ r.next? = some t ∧ t.kind = nextKind ps :=
  h.next?.yields_peek

/-- A look at the kind of the next token tells whether that of the first piece is among those asked
for. -/
theorem yields_peekIs (h : r.Shows ps) (kinds : List Kind) :
    Yields (peekIs kinds) r fun b r' => r' = r ∧ (b = true ↔ nextKind ps ∈ kinds) :=
  h.next?.yields_peekIs kinds

/-- Where the first piece is of a kind that is asked for, the first case is taken. -/
theorem yields_if_peekIs {p q : Grammar α} {Q : α → Reading → Prop} {kinds : List Kind}
    (h : r.Shows ps) (hk : nextKind ps ∈ kinds) (hp : Yields p r Q) :
    Yields (do if ← peekIs kinds then p else q) r Q :=
  h.next?.yields_if_peekIs hk hp

/-- Where the first piece is of no kind that is asked for, the second case is taken. -/
theorem yields_unless_peekIs {p q : Grammar α} {Q : α → Reading → Prop} {kinds : List Kind}
    (h : r.Shows ps) (hk : nextKind ps ∉ kinds) (hq : Yields q r Q) :
    Yields (do if ← peekIs kinds then p else q) r Q :=
  h.next?.yields_unless_peekIs hk hq

/-- Where the first piece is on the line and of a kind that is asked for, the first case is taken.
-/
theorem yields_if_continuesWith {p q : Grammar α} {Q : α → Reading → Prop} {kinds : List Kind}
    (h : r.Shows ps) (hline : r.afterBreak = false) (hk : nextKind ps ∈ kinds)
    (hp : Yields p r Q) : Yields (do if ← continuesWith kinds then p else q) r Q :=
  h.next?.yields_if_continuesWith hline hk hp

/-- Where the line is over or the first piece is of no kind that is asked for, the second case is
taken. -/
theorem yields_unless_continuesWith {p q : Grammar α} {Q : α → Reading → Prop}
    {kinds : List Kind} (h : r.Shows ps) (hk : r.afterBreak = true ∨ nextKind ps ∉ kinds)
    (hq : Yields q r Q) : Yields (do if ← continuesWith kinds then p else q) r Q :=
  h.next?.yields_unless_continuesWith hk hq

/-- The first word is taken. -/
theorem yields_next (h : r.Shows (.word k value :: ps)) (hk : k ≠ .newline) :
    Yields next r fun t r' =>
      t.kind = k ∧ t.value = value ∧ r'.Shows ps ∧ r'.afterBreak = false := by
  obtain ⟨pos, hfront, hfinal⟩ := h
  refine ensures_mono (yields_next_of_front hfront hk) ?_
  rintro t r' ⟨rfl, rfl⟩
  exact ⟨rfl, rfl, ⟨_, rfl, hfinal⟩, rfl⟩

/-- The first word is taken if it is of the kinds. -/
theorem yields_expect {kinds : List Kind} (h : r.Shows (.word k value :: ps)) (hk : k ≠ .newline)
    (hkinds : k ∈ kinds) :
    Yields (expect kinds) r fun t r' =>
      t.kind = k ∧ t.value = value ∧ r'.Shows ps ∧ r'.afterBreak = false := by
  obtain ⟨pos, hfront, hfinal⟩ := h
  refine ensures_mono (yields_expect_of_front hfront hk hkinds) ?_
  rintro t r' ⟨rfl, rfl⟩
  exact ⟨rfl, rfl, ⟨_, rfl, hfinal⟩, rfl⟩

/-- A line break is taken, and a line starts. -/
theorem yields_newline (h : r.Shows (.newline :: ps)) :
    Yields (expect [.newline]) r fun _ r' => r'.ShowsLine ps ∧ r'.afterBreak = true := by
  obtain ⟨pos, hfront, hfinal⟩ := h
  unfold expect
  refine ensures_bind (P := fun t r' => t.kind = .newline ∧ r'.ShowsLine ps ∧ r'.afterBreak = true)
    ?_ ?_
  · unfold Ensures next
    rw [hfront]
    refine ⟨rfl, ⟨_, ?_, rfl, hfinal⟩, rfl⟩
    cases ps <;> rfl
  · rintro t r' ⟨ht, hr'⟩
    have hone : t.isOneOf [.newline] = true := by
      rw [Token.isOneOf, ht]
      rfl
    rw [if_pos hone]
    exact ensures_pure hr'

/-- The column of the first token of a line is given by the indentation. -/
theorem yields_peek_line {d : Nat} (h : r.ShowsLine (.indent d :: .word k value :: ps)) :
    Yields peek r fun t r' => r' = r ∧ t.kind = k ∧ t.pos.column = 2 * d := by
  obtain ⟨pos, hcolumn, hfront, -⟩ := h
  have hplace : ((Piece.chars (.indent d) ++
      Piece.gap (.indent d) (.word k value :: ps)).foldl Position.advance pos).column = 2 * d := by
    show ((List.replicate (2 * d) ' ' ++ []).foldl Position.advance pos).column = _
    rw [List.append_nil, Position.column_foldl_spaces, hcolumn]
    omega
  unfold Yields Ensures peek
  rw [hfront]
  exact ⟨rfl, rfl, hplace⟩

/-- A line of at most the given depth starts in a column of such a depth, and nothing else follows
but the end. -/
theorem yields_peek_within {depth : Nat} (h : r.ShowsLine ps) (hps : Within depth ps) :
    Yields peek r fun t r' => r' = r ∧ t.kind = nextKind ps ∧
      (t.kind = .endOfInput ∨ ∃ d ≤ depth, t.pos.column = 2 * (d : Int)) := by
  cases hps with
  | nil =>
    refine ensures_mono (yields_peek h.shows) ?_
    rintro t r' ⟨rfl, -, ht⟩
    exact ⟨rfl, ht, Or.inl ht⟩
  | @line d k value rest hd hk =>
    refine ensures_mono (yields_peek_line h) ?_
    rintro t r' ⟨rfl, ht, hcolumn⟩
    exact ⟨rfl, ht, Or.inr ⟨d, hd, hcolumn⟩⟩

/-- Where the first piece is no line break, none is skipped. -/
theorem yields_skipBreaks (h : r.Shows ps) (hps : nextKind ps ≠ .newline) :
    Yields skipBreaks r fun _ r' => r' = r :=
  h.next?.yields_skipBreaks hps

/-- The end of a line is taken, or was taken already, and a line starts. -/
theorem yields_endLine (h : r.Ended ps) :
    Yields endLine r fun _ r' => r'.ShowsLine ps ∧ r'.afterBreak = true := by
  show Yields (if r.afterBreak then pure () else _) r _
  rcases h with ⟨hbreak, hline⟩ | ⟨hbreak, hline⟩
  · rw [if_pos hbreak]
    exact ensures_pure ⟨hline, hbreak⟩
  · rw [if_neg (ne_true_of_eq_false hbreak)]
    refine yields_unless_peekIs hline (by simp [nextKind]) ?_
    refine ensures_bind (yields_newline hline) ?_
    rintro t r'' hr''
    exact ensures_pure hr''

/-- The colon and the line break that open arms or a block are taken, and a line starts. -/
theorem yields_opening (h : r.Shows (.fixed .colon :: .newline :: ps))
    (hps : nextKind ps ≠ .newline) :
    Yields opening r fun _ r' => r'.ShowsLine ps ∧ r'.afterBreak = true := by
  refine ensures_bind (yields_expect h (by decide) (by decide)) ?_
  rintro colon r₁ ⟨-, -, hr₁, -⟩
  refine ensures_bind (yields_newline hr₁) ?_
  rintro break_ r₂ ⟨hr₂, hbreak⟩
  refine ensures_mono (yields_skipBreaks hr₂.shows hps) ?_
  rintro - r₃ rfl
  exact ⟨hr₂, hbreak⟩

end Grammar

end Offside
