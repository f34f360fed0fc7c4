import Offside.Proofs.Tree.ExpressionComplete

/-!
# Short phrases

For every piece of the grammar there are a few words that it takes: a truth word for an expression, a
closing parenthesis for arguments, one arm for a selection, one statement for a block, and nothing at
all where more may follow but need not. They are what is written where a source breaks off.
-/

set_option autoImplicit false

namespace Offside

/-- The pieces are to come, after a line break or not. -/
structure Reading.Stands (r : Reading) (b : Bool) (ps : List Piece) : Prop where
  shows : r.Shows ps
  line : r.afterBreak = b

/-- The shortest expression. -/
def Piece.truth : Piece := .word .boolean "true"

/-- Some name. -/
def Piece.name : Piece := .word .identifier "x"

namespace Grammar

open Reading Piece

variable {r : Reading} {b : Bool} {rest : List Piece} {fuel : Nat}

/-- The kinds of tokens that can follow an expression, whatever it is a part of. -/
def followKinds : List Kind := [.rightParen, .comma, .colon, .arrow, .newline, .endOfInput]

/-- What can follow an expression. Where it ended with the line break of a last arm, all line breaks
are taken. -/
structure Follows (b : Bool) (rest : List Piece) : Prop where
  kind : nextKind rest ∈ followKinds
  line : b = true → nextKind rest ≠ .newline

/-- What may follow an expression closes it. -/
theorem Follows.closes (h : Follows b rest) : Closes rest := by
  have hall : ∀ k ∈ followKinds, k ∉ binaryOperators ∧ k ≠ .leftParen := by decide
  exact hall _ h.kind

/-- What may follow an expression is not of any other kind. -/
theorem Follows.not_mem (h : Follows b rest) (kinds : List Kind)
    (hkinds : ∀ k ∈ followKinds, k ∉ kinds) : nextKind rest ∉ kinds :=
  hkinds _ h.kind

/-- Nothing may follow an expression. -/
theorem follows_end : Follows b [] := ⟨by decide, fun _ => by decide⟩

/-- A token of the kinds that may follow an expression follows it. -/
theorem follows_fixed {k : Kind} (hk : k ∈ followKinds) (hbreak : k ≠ .newline) :
    Follows b (.fixed k :: rest) := ⟨hk, fun _ => hbreak⟩

/-- What is done with the result alone does not matter. -/
theorem yields_map {α β : Type} {p : Grammar α} {g : α → β} {K : Reading → Prop}
    (h : Yields p r fun _ r' => K r') :
    Yields (do let a ← p; pure (g a)) r fun _ r' => K r' := by
  refine ensures_bind h ?_
  intro a r' hr'
  exact ensures_pure hr'

/-! ## Expressions -/

/-- The word for true is read as an operand. -/
theorem yields_unary_truth (h : r.Shows (.truth :: rest)) (hrest : Closes rest) (fuel : Nat) :
    Yields (unary fuel) r fun _ r' => r'.Stands false rest := by
  refine ensures_mono ((readable_boolean .origin true).operand fuel 0 rest r h hrest.2) ?_
  rintro n r' ⟨-, hr', hline⟩
  exact ⟨hr', hline⟩

/-- The word for true is read as an expression of any levels. -/
theorem yields_truth (h : r.Shows (.truth :: rest)) (hrest : Closes rest) (lv : List (List Kind))
    (hlv : ∀ k ∈ lv.flatten, k ∈ binaryOperators) (fuel : Nat) :
    Yields (expression fuel lv) r fun _ r' => r'.Stands false rest := by
  refine yields_expression (fun fuel => yields_unary_truth h hrest fuel) lv ?_ fuel
  intro n r' hr'
  exact ⟨rest, hr'.shows, .inr fun hmem => hrest.1 (hlv _ hmem)⟩

/-- The word for true is read as an atom. -/
theorem yields_atom_truth (h : r.Shows (.truth :: rest)) (fuel : Nat) :
    Yields (atom fuel) r fun _ r' => r'.Stands false rest := by
  cases fuel with
  | zero => exact rfl
  | succ fuel =>
    rw [atom]
    refine ensures_bind (yields_expect h (by decide) (by decide)) ?_
    rintro word r₁ ⟨hword, -, hr₁, hline⟩
    simp only [hword]
    exact ensures_pure ⟨hr₁, hline⟩

/-- In front of what may follow an expression, no operation is read. -/
theorem yields_operations_none {level : List Kind} {tighter : List (List Kind)} {left : Node}
    (hlevel : ∀ k ∈ level, k ∈ binaryOperators) (h : r.Stands b rest) (hrest : Follows b rest)
    (fuel : Nat) :
    Yields (operations fuel level tighter left) r fun _ r' => r'.Stands b rest := by
  have hstop : Stops level r := ⟨rest, h.shows, .inr fun hmem => hrest.closes.1 (hlevel _ hmem)⟩
  refine ensures_mono (yields_operations hstop fuel) ?_
  rintro n r' ⟨-, rfl⟩
  exact h

/-- A closing parenthesis is read. -/
theorem yields_close {α : Type} (h : r.Shows (.fixed .rightParen :: rest)) (a : α) :
    Yields (do let _ ← expect [.rightParen]; pure a) r fun _ r' => r'.Stands false rest := by
  refine ensures_bind (yields_expect h (by decide) (by decide)) ?_
  rintro paren r' ⟨-, -, hr', hline⟩
  exact ensures_pure ⟨hr', hline⟩

/-- The rest of a list, and then its end. -/
theorem yields_listEnd {α : Type} {p : Grammar (List α)}
    (h : Yields p r fun _ r' => r'.Stands b (.fixed .rightParen :: rest)) (a : α) :
    Yields (do let more ← p; let _ ← expect [.rightParen]; pure (a :: more)) r
      fun _ r' => r'.Stands false rest := by
  refine ensures_bind h ?_
  intro more r' hr'
  exact yields_close hr'.shows _

/-- A closing parenthesis alone is read as no arguments. -/
theorem yields_arguments_none (h : r.Shows (.fixed .rightParen :: rest)) (fuel : Nat) :
    Yields (arguments fuel) r fun _ r' => r'.Stands false rest := by
  cases fuel with
  | zero => exact rfl
  | succ fuel =>
    rw [arguments]
    exact yields_if_peekIs h (List.mem_singleton_self _) (yields_close h _)

/-- Where there is no comma, no further arguments are read. -/
theorem yields_moreArguments_none (h : r.Stands b rest) (hrest : nextKind rest ≠ .comma)
    (fuel : Nat) : Yields (moreArguments fuel) r fun _ r' => r'.Stands b rest := by
  cases fuel with
  | zero => exact rfl
  | succ fuel =>
    rw [moreArguments]
    exact yields_unless_peekIs h.shows (by simpa using hrest) (ensures_pure h)

/-! ## Selections -/

/-- Where there is no bar, no further arms are read. -/
theorem yields_arms_none (h : r.Stands b rest) (hbreak : nextKind rest ≠ .newline)
    (hbar : nextKind rest ≠ .bar) (column : Int) (fuel : Nat) :
    Yields (arms fuel column) r fun _ r' => r'.Stands b rest := by
  cases fuel with
  | zero => exact rfl
  | succ fuel =>
    rw [arms]
    refine ensures_bind (yields_skipBreaks h.shows hbreak) ?_
    rintro - r₁ rfl
    refine ensures_bind (yields_peek h.shows) ?_
    rintro tok r₁ ⟨rfl, -, htok⟩
    rw [if_neg fun hnot => hbar (htok ▸ hnot.1)]
    exact ensures_pure h

/-- What ends the line of an arm. -/
def lineEnd (b : Bool) : List Piece := if b then [] else [.newline]

/-- After the result of an arm, the line ends and there may be no more arms. -/
theorem yields_armEnd {α : Type} (h : r.Stands b (lineEnd b ++ rest)) (hrest : Follows true rest)
    (column : Int) (f : Arms → α) (fuel : Nat) :
    Yields (do endLine; let rest ← arms fuel column; pure (f rest)) r
      fun _ r' => r'.Stands true rest := by
  have hend : Yields endLine r fun _ r' => r'.Stands true rest := by
    cases b with
    | true =>
      show Yields (if r.afterBreak then pure () else _) r _
      rw [if_pos h.line]
      exact ensures_pure h
    | false =>
      refine ensures_mono (yields_endLine (.inr ⟨h.line, h.shows⟩)) ?_
      rintro - r' ⟨hr', hline⟩
      exact ⟨hr'.shows, hline⟩
  refine ensures_bind hend ?_
  rintro - r₁ hr₁
  have hbar : nextKind rest ≠ .bar := by simpa using hrest.not_mem [.bar] (by decide)
  exact yields_map (yields_arms_none hr₁ (hrest.line rfl) hbar column fuel)

/-- The arrow of an arm with the word for true behind it is read. -/
theorem yields_armResult {α : Type}
    (h : r.Shows (.fixed .arrow :: .truth :: .newline :: rest)) (hrest : Follows true rest)
    (column : Int) (f : Node → Arms → α) (fuel : Nat) :
    Yields (do
      let _ ← expect [.arrow]
      let result ← expression fuel levels
      endLine
      let rest ← arms fuel column
      pure (f result rest)) r fun _ r' => r'.Stands true rest := by
  refine ensures_bind (yields_expect h (by decide) (by decide)) ?_
  rintro arrow r₁ ⟨-, -, hr₁, -⟩
  refine ensures_bind (yields_truth hr₁ (closes_newline rest) levels (fun _ hk => hk) fuel) ?_
  rintro result r₂ hr₂
  exact yields_armEnd hr₂ hrest column (f result) fuel

/-- One arm, the wildcard. -/
def wildcardArm : List Piece :=
  [.fixed .bar, .fixed .times, .fixed .arrow, .truth, .newline]

/-- An arm starts with a bar. -/
theorem nextKind_wildcardArm (rest : List Piece) : nextKind (wildcardArm ++ rest) = .bar := rfl

/-- A wildcard with the word for true for its result is read as an arm. -/
theorem yields_wildcardArm (h : r.Shows (wildcardArm ++ rest)) (hrest : Follows true rest)
    {first : Token} (hfirst : r.next? = some first) (fuel : Nat) :
    Yields (arms fuel first.pos.column) r fun _ r' => r'.Stands true rest := by
  cases fuel with
  | zero => exact rfl
  | succ fuel =>
    rw [arms]
    refine ensures_bind (yields_skipBreaks h (by simp [nextKind_wildcardArm])) ?_
    rintro - r₁ rfl
    refine ensures_bind (yields_peek h) ?_
    rintro tok r₁ ⟨rfl, hnext, htok⟩
    obtain rfl : first = tok := by simpa [hfirst] using hnext
    rw [if_pos ⟨htok, rfl⟩]
    refine ensures_bind (yields_next h (by decide)) ?_
    rintro - r₂ ⟨-, -, hr₂, -⟩
    refine yields_if_peekIs hr₂ (List.mem_singleton_self _) ?_
    refine ensures_bind (yields_next hr₂ (by decide)) ?_
    rintro - r₃ ⟨-, -, hr₃, -⟩
    exact yields_armResult hr₃ hrest _ _ fuel

/-- The arms of a selection behind its opening. -/
theorem yields_firstArm {α : Type} (h : r.Shows (wildcardArm ++ rest)) (hrest : Follows true rest)
    (f : Arms → α) (fuel : Nat) :
    Yields (do
      let first ← peek
      if first.kind = .bar then
        let arms ← Grammar.arms fuel first.pos.column
        pure (f arms)
      else fail (.unexpected first.kind [.bar] "" first.pos)) r fun _ r' => r'.Stands true rest := by
  refine ensures_bind (yields_peek h) ?_
  rintro first r₁ ⟨rfl, hnext, hkind⟩
  rw [nextKind_wildcardArm] at hkind
  rw [if_pos hkind]
  exact yields_map (yields_wildcardArm h hrest hnext fuel)

/-- The colon and a wildcard arm complete a selection. -/
theorem yields_select {α : Type}
    (h : r.Shows (.fixed .colon :: .newline :: (wildcardArm ++ rest))) (hrest : Follows true rest)
    (f : Arms → α) (fuel : Nat) :
    Yields (do
      opening
      let first ← peek
      if first.kind = .bar then
        let arms ← Grammar.arms fuel first.pos.column
        pure (f arms)
      else fail (.unexpected first.kind [.bar] "" first.pos)) r fun _ r' => r'.Stands true rest := by
  refine ensures_bind (yields_opening h (by simp [nextKind_wildcardArm])) ?_
  rintro - r₁ ⟨hr₁, -⟩
  exact yields_firstArm hr₁.shows hrest f fuel

/-! ## Statements at the end of a source -/

/-- The end of the source is read as the end of a line. -/
theorem yields_endLine_end {α : Type} (h : r.Stands b []) (a : α) :
    Yields (do endLine; pure a) r fun _ r' => r'.Stands b [] := by
  have hend : Yields endLine r fun _ r' => r' = r := by
    show Yields (if r.afterBreak then pure () else _) r _
    split
    · exact ensures_pure rfl
    · exact yields_if_peekIs h.shows (List.mem_singleton_self _) (ensures_pure rfl)
  refine ensures_bind hend ?_
  rintro - r₁ rfl
  exact ensures_pure h

/-- At the end of the source, no further statements are read. -/
theorem yields_statements_end (h : r.Stands b []) (column : Int) (fuel : Nat) :
    Yields (statements fuel column) r fun _ r' => r'.Stands b [] := by
  cases fuel with
  | zero => exact rfl
  | succ fuel =>
    rw [statements]
    refine ensures_bind (yields_skipBreaks h.shows (by decide)) ?_
    rintro - r₁ rfl
    refine ensures_bind (yields_peek h.shows) ?_
    rintro tok r₁ ⟨rfl, -, htok⟩
    rw [if_pos (.inl htok)]
    exact ensures_pure h

/-- At the end of the source, no further branches are read. -/
theorem yields_branches_end (h : r.Stands b []) (fuel : Nat) :
    Yields (branches fuel) r fun _ r' => r'.Stands b [] := by
  cases fuel with
  | zero => exact rfl
  | succ fuel =>
    rw [branches]
    refine yields_unless_peekIs h.shows (by decide) ?_
    exact yields_unless_peekIs h.shows (by decide) (ensures_pure h)

/-- At the end of the source, an empty program is read. -/
theorem yields_program_end (h : r.Stands b []) (fuel : Nat) :
    Yields (program fuel) r fun _ r' => r'.Stands b [] := by
  cases fuel with
  | zero => exact rfl
  | succ fuel =>
    rw [program]
    refine ensures_bind (yields_skipBreaks h.shows (by decide)) ?_
    rintro - r₁ rfl
    exact yields_if_peekIs h.shows (by decide) (ensures_pure h)

/-- The word for true is read as a statement. -/
theorem yields_statement_truth (h : r.Shows [.truth]) (fuel : Nat) :
    Yields (statement fuel) r fun _ r' => r'.Stands false [] := by
  have hline : ∀ fuel, Yields (expressionStatement fuel) r fun _ r' => r'.Stands false [] := by
    intro fuel
    refine ensures_bind (yields_truth h (follows_end (b := false)).closes levels (fun _ hk => hk)
      fuel) ?_
    rintro target r₁ hr₁
    exact yields_unless_continuesWith hr₁.shows (.inr (by decide)) (ensures_pure hr₁)
  cases fuel with
  | zero => exact rfl
  | succ fuel =>
    rw [statement]
    refine ensures_bind (yields_peek h) ?_
    rintro first r₁ ⟨rfl, -, hfirst⟩
    have hkind : first.kind = .boolean := hfirst
    simp only [hkind]
    refine ensures_bind (hline fuel) ?_
    rintro node r₂ hr₂
    exact yields_endLine_end hr₂ node

/-- The statements of a block behind its opening. -/
theorem yields_body_truth (h : r.Shows [.truth]) (fuel : Nat) :
    Yields (do
      let first ← peek
      if first.kind = .endOfInput then
        fail (.unexpected first.kind [] "expected an indented block" first.pos)
      else
        let body ← statements fuel first.pos.column
        note first.pos body.length
        pure (first, body)) r fun _ r' => r'.Stands false [] := by
  refine ensures_bind (yields_peek h) ?_
  rintro first r₁ ⟨rfl, hnext, hfirst⟩
  have hkind : first.kind = .boolean := hfirst
  simp only [hkind, reduceCtorEq, if_false]
  refine ensures_bind (P := fun _ r' => r'.Stands false []) ?_ ?_
  · cases fuel with
    | zero => exact rfl
    | succ fuel =>
      rw [statements]
      refine ensures_bind (yields_skipBreaks h (by decide)) ?_
      rintro - r₂ rfl
      refine ensures_bind (yields_peek h) ?_
      rintro tok r₂ ⟨rfl, htok, -⟩
      obtain rfl : first = tok := by simpa [hnext] using htok
      rw [if_neg (by simp [hkind])]
      refine ensures_bind (yields_statement_truth h fuel) ?_
      rintro node r₃ hr₃
      exact yields_map (yields_statements_end hr₃ _ fuel)
  · rintro body r₂ ⟨⟨pos, hfront, hfinal⟩, hline⟩
    exact ⟨⟨pos, hfront, hfinal⟩, hline⟩

/-- The colon and a line with the word for true are read as a block. -/
theorem yields_block_truth (h : r.Shows [.fixed .colon, .newline, .truth]) (fuel : Nat) :
    Yields (block fuel) r fun _ r' => r'.Stands false [] := by
  cases fuel with
  | zero => exact rfl
  | succ fuel =>
    rw [block]
    refine ensures_bind (yields_opening h (by decide)) ?_
    rintro - r₁ ⟨hr₁, -⟩
    exact yields_body_truth hr₁.shows fuel

/-- Where there is no comma, no further parameters are read. -/
theorem yields_moreParams_none (h : r.Stands b rest) (hrest : nextKind rest ≠ .comma)
    (fuel : Nat) : Yields (moreParams fuel) r fun _ r' => r'.Stands b rest := by
  cases fuel with
  | zero => exact rfl
  | succ fuel =>
    rw [moreParams]
    exact yields_unless_peekIs h.shows (by simpa using hrest) (ensures_pure h)

/-- Two parentheses are read as no parameters. -/
theorem yields_params_none (h : r.Shows (.fixed .leftParen :: .fixed .rightParen :: rest))
    (fuel : Nat) : Yields (params fuel) r fun _ r' => r'.Stands false rest := by
  refine ensures_bind (yields_expect h (by decide) (by decide)) ?_
  rintro paren r₁ ⟨-, -, hr₁, -⟩
  exact yields_if_peekIs hr₁ (List.mem_singleton_self _) (yields_close hr₁ _)

end Grammar

end Offside
