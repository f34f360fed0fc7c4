import Offside.Proofs.Tree.Foresight
import Offside.Proofs.Tree.Spans
import Offside.Proofs.Tree.Yield

/-!
# Blocks are delimited by columns

Every piece of the grammar gives a result that is derived from the tokens which the piece took
(`Spans`). What has to be kept along the way is that no line is unfinished where a statement or an
arm may start: after a statement either a line break was just taken or the source ends
(`Place.Settled`), whatever blocks and arms inside it have already taken the end of its line. The
pieces call each other, so all of this is proved together by induction on the fuel.
-/

set_option autoImplicit false

namespace Offside

namespace Grammar

open Reading

variable {eof : Token} {r : Reading} {p : Place} {fuel : Nat}

/-! ## Expressions -/

/-- What the pieces of the grammar for expressions trace with the given fuel. -/
structure ExpressionsTrace (eof : Token) (fuel : Nat) : Prop where
  expression : ∀ (lv : List (List Kind)) (r : Reading) (p : Place), lv <:+ levels →
    Traces eof (expression fuel lv) r p fun n q => Spans.Expression p n q
  operations : ∀ (level : List Kind) (tighter : List (List Kind)) (left : Node) (r : Reading)
    (start p : Place), level :: tighter <:+ levels → Spans.Expression start left p →
    Traces eof (operations fuel level tighter left) r p fun n q => Spans.Expression start n q
  unary : ∀ (r : Reading) (p : Place),
    Traces eof (unary fuel) r p fun n q => Spans.Expression p n q
  atom : ∀ (r : Reading) (p : Place),
    Traces eof (atom fuel) r p fun n q => Spans.Expression p n q
  arguments : ∀ (r : Reading) (p : Place), Traces eof (arguments fuel) r p fun args q =>
    ∃ p₁, Spans.Arguments true p args p₁ ∧ p₁.TakesKind .rightParen q
  moreArguments : ∀ (r : Reading) (p : Place),
    Traces eof (moreArguments fuel) r p fun args q => Spans.Arguments false p args q
  arms : ∀ (column : Int) (r : Reading) (p : Place), p.Settled →
    Traces eof (arms fuel column) r p fun as q => Spans.Arms column p as q

section Leaves

variable {p₀ : Place} {tok : Token} (htok : p₀.Takes tok p)
include htok

/-- The literal of a whole number spans its token. -/
theorem traces_integerLiteral (hkind : tok.kind = .integer) :
    Traces eof (integerLiteral tok) r p fun n q => Spans.Expression p₀ n q := by
  unfold integerLiteral
  dsimp only
  split
  · exact traces_pure (.leaf (congrArg some hkind.symm) rfl htok)
  · exact traces_throw

/-- The literal of a double spans its token. -/
theorem traces_floatLiteral (hkind : tok.kind = .float) :
    Traces eof (floatLiteral tok) r p fun n q => Spans.Expression p₀ n q := by
  unfold floatLiteral
  cases Numeral.finite? tok.value.toList with
  | some x => exact traces_pure (.leaf (congrArg some hkind.symm) rfl htok)
  | none => exact traces_throw

end Leaves

section ExpressionStep

variable (ih : ExpressionsTrace eof fuel)
include ih

/-- Expressions of all levels span the tokens that they are read from. -/
theorem ExpressionsTrace.whole (r : Reading) (p : Place) :
    Traces eof (Grammar.expression fuel levels) r p fun n q => Spans.Expression p n q :=
  ih.expression levels r p (List.suffix_refl _)

/-- An expression of a level spans the tokens that it is read from. -/
theorem traces_expression (lv : List (List Kind)) (hlv : lv <:+ levels) :
    Traces eof (expression (fuel + 1) lv) r p fun n q => Spans.Expression p n q := by
  cases lv with
  | nil =>
    rw [expression]
    exact ih.unary r p
  | cons level tighter =>
    rw [expression]
    have htighter : tighter <:+ levels := (List.suffix_cons level tighter).trans hlv
    apply traces_bind (ih.expression tighter r p htighter)
    intro left r₁ p₁ hleft
    exact ih.operations level tighter left r₁ p p₁ hlv hleft

/-- An operation spans its left operand and what is read behind it. -/
theorem traces_operations (level : List Kind) (tighter : List (List Kind)) (left : Node)
    {start : Place} (hlv : level :: tighter <:+ levels) (hleft : Spans.Expression start left p) :
    Traces eof (operations (fuel + 1) level tighter left) r p fun n q =>
      Spans.Expression start n q := by
  rw [operations]
  have hbinary : ∀ k ∈ level, k ∈ binaryOperators := fun k hk => mem_binaryOperators hlv hk
  apply traces_if_continuesWith
  · intro hend
    exact ne_endOfInput_of_binary (hbinary _ hend) rfl
  · intro tok r₁ p₁ hline hkind htok
    have htighter : tighter <:+ levels := (List.suffix_cons level tighter).trans hlv
    apply traces_bind (ih.expression tighter r₁ p₁ htighter)
    intro right r₂ p₂ hright
    have hnode : Spans.Expression start (.binary tok tok.kind left right) p₂ :=
      .binary (hbinary _ hkind) hleft hline htok hright
    exact ih.operations level tighter _ r₂ start p₂ hlv hnode
  · exact traces_pure hleft

/-- An operand with its sign spans the tokens that it is read from. -/
theorem traces_unary :
    Traces eof (unary (fuel + 1)) r p fun n q => Spans.Expression p n q := by
  rw [unary]
  apply traces_if_peekIs (by decide)
  · intro tok r₁ p₁ hkind htok
    apply traces_bind (ih.unary r₁ p₁)
    intro operand r₂ p₂ hoperand
    exact traces_pure (.unary hkind htok hoperand)
  · exact ih.atom r p

/-- Arguments span the tokens in front of the closing parenthesis. -/
theorem traces_arguments :
    Traces eof (arguments (fuel + 1)) r p fun args q =>
      ∃ p₁, Spans.Arguments true p args p₁ ∧ p₁.TakesKind .rightParen q := by
  rw [arguments]
  apply traces_choice
  intro b _
  dsimp only
  split
  · apply traces_mono (traces_close [])
    rintro args q ⟨rfl, hclose⟩
    exact ⟨p, .none, hclose⟩
  · apply traces_bind (ih.whole r p)
    intro arg r₁ p₁ harg
    apply traces_bind (ih.moreArguments r₁ p₁)
    intro rest r₂ p₂ hrest
    apply traces_mono (traces_close (arg :: rest))
    rintro args q ⟨rfl, hclose⟩
    exact ⟨p₂, .first harg hrest, hclose⟩

/-- Further arguments span the tokens that they are read from. -/
theorem traces_moreArguments :
    Traces eof (moreArguments (fuel + 1)) r p fun args q => Spans.Arguments false p args q := by
  rw [moreArguments]
  apply traces_if_peekIs (by decide)
  · intro comma r₁ p₁ hkind hcomma
    apply traces_bind (ih.whole r₁ p₁)
    intro arg r₂ p₂ harg
    apply traces_bind (ih.moreArguments r₂ p₂)
    intro rest r₃ p₃ hrest
    exact traces_pure (.more (hcomma.ofKind hkind) harg hrest)
  · exact traces_pure .none

/-- The result of an arm and the arms after it. -/
theorem traces_armResult (column : Int) (f : Node → Arms → Arms) :
    Traces eof (do
      let _ ← expect [.arrow]
      let result ← expression fuel levels
      endLine
      let rest ← Grammar.arms fuel column
      pure (f result rest)) r p fun as q =>
        ∃ result rest p₁ p₂ p₃, as = f result rest ∧ p.TakesKind .arrow p₁ ∧
          Spans.Expression p₁ result p₂ ∧ p₂.EndsLine p₃ ∧ Spans.Arms column p₃ rest q := by
  apply traces_bind (traces_mark (by decide))
  intro arrow r₁ p₁ harrow
  apply traces_bind (ih.whole r₁ p₁)
  intro result r₂ p₂ hresult
  apply traces_bind traces_endLine
  intro _ r₃ p₃ hend
  apply traces_bind (ih.arms column r₃ p₃ hend.settled)
  intro rest r₄ p₄ hrest
  exact traces_pure ⟨result, rest, p₁, p₂, p₃, rfl, ⟨arrow, harrow⟩, hresult, hend, hrest⟩

/-- Arms in a column span the tokens that they are read from. -/
theorem traces_arms (column : Int) (hp : p.Settled) :
    Traces eof (arms (fuel + 1) column) r p fun as q => Spans.Arms column p as q := by
  rw [arms]
  apply traces_bind traces_skipBreaks
  rintro _ r₁ _ rfl
  apply traces_peek
  intro tok htok
  split
  · rename_i hbar
    have hend : tok.kind ≠ .endOfInput := by simp [hbar.1]
    -- a settled place in front of a token that is not the end can only be the start of a line
    have hline : p.pastBreaks.StartsLine := hp.pastBreaks.startsLine htok hend
    apply traces_next htok hend
    intro r₂ p₂ htaken
    apply traces_if_peekIs (by decide)
    · intro star r₃ p₃ hkind hstar
      apply traces_mono (traces_armResult ih column _)
      rintro as q ⟨result, rest, p₄, p₅, p₆, rfl, harrow, hresult, hends, hrest⟩
      exact .wildcard hline hbar htaken (hstar.ofKind hkind) harrow hresult
        hends hrest
    · apply traces_bind (ih.whole r₂ p₂)
      intro pattern r₃ p₃ hpattern
      apply traces_mono (traces_armResult ih column _)
      rintro as q ⟨result, rest, p₄, p₅, p₆, rfl, harrow, hresult, hends, hrest⟩
      exact .pattern hline hbar htaken hpattern harrow hresult hends hrest
  · rename_i hbar
    exact traces_pure (.done ⟨tok, htok, hbar⟩)

/-- A selection after its first word. -/
theorem traces_select {p₀ : Place} {tok : Token} (hkind : tok.kind = .matchWord)
    (htok : p₀.Takes tok p) :
    Traces eof (do
      let subject ← Grammar.expression fuel levels
      opening
      let first ← peek
      if first.kind = .bar then
        let arms ← Grammar.arms fuel first.pos.column
        pure (Node.select tok subject arms)
      else fail (.unexpected first.kind [.bar] "" first.pos)) r p fun n q =>
        Spans.Expression p₀ n q := by
  apply traces_bind (ih.whole r p)
  intro subject r₁ p₁ hsubject
  apply traces_bind traces_opening
  intro _ r₂ p₂ hopens
  apply traces_peek
  intro first hfirst
  split
  · rename_i hbar
    apply traces_bind (ih.arms first.pos.column r₂ p₂ (.inl hopens.startsLine))
    intro arms r₃ p₃ harms
    have hsome : arms ≠ .done := harms.ne_done hopens hfirst ⟨hbar, rfl⟩
    exact traces_pure (.select hkind htok hsubject hopens hsome harms)
  · exact traces_throw

/-- An atom spans the tokens that it is read from. -/
theorem traces_atom : Traces eof (atom (fuel + 1)) r p fun n q => Spans.Expression p n q := by
  rw [atom]
  apply traces_bind (traces_expect (by decide))
  rintro tok r₁ p₁ ⟨hkind, htok⟩
  simp only [atomKinds, List.mem_cons, List.not_mem_nil, or_false] at hkind
  rcases hkind with hkind | hkind | hkind | hkind | hkind | hkind | hkind <;> simp only [hkind]
  · exact traces_integerLiteral htok hkind
  · exact traces_floatLiteral htok hkind
  · exact traces_pure (.leaf (congrArg some hkind.symm) rfl htok)
  · exact traces_pure (.leaf (congrArg some hkind.symm) rfl htok)
  · apply traces_bind (ih.whole r₁ p₁)
    intro inner r₂ p₂ hinner
    apply traces_mono (traces_close inner)
    rintro n q ⟨rfl, hclose⟩
    exact .parentheses ⟨tok, hkind, htok⟩ hinner hclose
  · apply traces_if_peekIs (by decide)
    · intro paren r₂ p₂ hparen hopen
      apply traces_bind (ih.arguments r₂ p₂)
      rintro args r₃ q ⟨p₃, hargs, hclose⟩
      exact traces_pure
        (.call hkind htok (hopen.ofKind hparen) hargs hclose)
    · exact traces_pure (.leaf (congrArg some hkind.symm) rfl htok)
  · exact traces_select ih hkind htok

end ExpressionStep

/-- With any fuel, expressions span the tokens that they are read from. -/
theorem expressionsTrace (eof : Token) (fuel : Nat) : ExpressionsTrace eof fuel := by
  induction fuel with
  | zero => constructor <;> intros <;> exact traces_throw
  | succ fuel ih =>
    exact {
      expression := fun lv _ _ hlv => traces_expression ih lv hlv
      operations := fun level tighter left _ _ _ hlv hleft =>
        traces_operations ih level tighter left hlv hleft
      unary := fun _ _ => traces_unary ih
      atom := fun _ _ => traces_atom ih
      arguments := fun _ _ => traces_arguments ih
      moreArguments := fun _ _ => traces_moreArguments ih
      arms := fun column _ _ hp => traces_arms ih column hp }

/-- An expression spans the tokens that it is read from. -/
theorem traces_whole :
    Traces eof (expression fuel levels) r p fun n q => Spans.Expression p n q :=
  (expressionsTrace eof fuel).whole r p

/-! ## Statements of one line -/

/-- Further parameters span the tokens that they are read from. -/
theorem traces_moreParams :
    Traces eof (moreParams fuel) r p fun names q => Spans.Params false p names q := by
  induction fuel generalizing r p with
  | zero => exact traces_throw
  | succ fuel ih =>
    rw [moreParams]
    apply traces_if_peekIs (by decide)
    · intro comma r₁ p₁ hkind hcomma
      apply traces_bind (traces_mark (by decide))
      rintro param r₂ p₂ ⟨hname, hparam⟩
      apply traces_bind ih
      intro rest r₃ p₃ hrest
      exact traces_pure (.more (hcomma.ofKind hkind) hname hparam hrest)
    · exact traces_pure .none

/-- Parameters span the tokens between their parentheses. -/
theorem traces_params :
    Traces eof (params fuel) r p fun names q => ∃ p₁ p₂, p.TakesKind .leftParen p₁ ∧
      Spans.Params true p₁ names p₂ ∧ p₂.TakesKind .rightParen q := by
  rw [params]
  apply traces_bind (traces_mark (by decide))
  intro paren r₁ p₁ hparen
  apply traces_choice
  intro b _
  dsimp only
  split
  · apply traces_mono (traces_close [])
    rintro names q ⟨rfl, hclose⟩
    exact ⟨p₁, p₁, ⟨paren, hparen⟩, .none, hclose⟩
  · apply traces_bind (traces_mark (by decide))
    rintro param r₂ p₂ ⟨hname, hparam⟩
    apply traces_bind traces_moreParams
    intro rest r₃ p₃ hrest
    apply traces_mono (traces_close (param.value :: rest))
    rintro names q ⟨rfl, hclose⟩
    exact ⟨p₁, p₃, ⟨paren, hparen⟩, .first hname hparam hrest, hclose⟩

/-- A declaration spans the tokens of its line. -/
theorem traces_declaration :
    Traces eof (declaration fuel) r p fun n q => Spans.Line p n q := by
  rw [declaration]
  apply traces_bind (traces_mark (by decide))
  rintro tok r₁ p₁ ⟨hkind, htok⟩
  apply traces_bind (traces_mark (by decide))
  rintro name r₂ p₂ ⟨hname, htaken⟩
  apply traces_if_peekIs (by decide)
  · intro sign r₃ p₃ hassign hsign
    apply traces_bind traces_whole
    intro value r₄ p₄ hvalue
    exact traces_pure (.initialised hkind htok hname htaken
      (hsign.ofKind hassign) hvalue)
  · exact traces_pure (.declared hkind htok hname htaken)

/-- A `return` spans the tokens of its line. -/
theorem traces_ret {first : Token} (hfirst : first ∈ p.next?) (hkind : first.kind = .returnWord) :
    Traces eof (ret fuel) r p fun n q => Spans.Line p n q := by
  rw [ret]
  apply traces_next hfirst (by rw [hkind]; decide)
  intro r₁ p₁ htok
  apply traces_choice
  intro b _
  split
  · exact traces_pure (.returned hkind htok)
  · apply traces_bind traces_whole
    intro value r₂ p₂ hvalue
    exact traces_pure (.returnedValue hkind htok hvalue)

/-- An expression that is a statement spans the tokens of its line. -/
theorem traces_expressionStatement :
    Traces eof (expressionStatement fuel) r p fun n q => Spans.Line p n q := by
  rw [expressionStatement]
  apply traces_bind traces_whole
  intro target r₁ p₁ htarget
  apply traces_if_continuesWith (by decide)
  · intro sign r₂ p₂ hline hassign hsign
    split
    · apply traces_bind traces_whole
      intro value r₃ p₃ hvalue
      exact traces_pure (.assignment htarget hline
        (hsign.ofKind hassign) hvalue)
    · exact traces_throw
  · exact traces_pure (.expression htarget)

/-- A statement of one line spans its tokens and ends its line. -/
theorem traces_simpleStatement {first : Token} (hfirst : first ∈ p.next?) :
    Traces eof (simpleStatement fuel first.kind) r p fun n q =>
      Spans.Statement p n q ∧ q.Settled := by
  have hend : ∀ g : Grammar Node, Traces eof g r p (fun n q => Spans.Line p n q) →
      Traces eof (do
        let n ← g
        endLine
        pure n) r p fun n q => Spans.Statement p n q ∧ q.Settled := by
    intro g hg
    apply traces_bind hg
    intro n r₁ p₁ hline
    apply traces_bind traces_endLine
    intro _ r₂ p₂ hends
    exact traces_pure ⟨.line hline hends, hends.settled⟩
  unfold simpleStatement
  dsimp only
  split
  · exact hend _ traces_declaration
  · split
    · rename_i hkind
      exact hend _ (traces_ret hfirst hkind)
    · exact hend _ traces_expressionStatement

/-! ## Blocks and branches -/

/-- What the pieces of the grammar for statements trace with the given fuel. -/
structure StatementsTrace (eof : Token) (fuel : Nat) : Prop where
  statement : ∀ (r : Reading) (p : Place), Traces eof (statement fuel) r p fun n q =>
    Spans.Statement p n q ∧ q.Settled
  block : ∀ (r : Reading) (p : Place), Traces eof (block fuel) r p fun b q =>
    Spans.Block p b.1 b.2 q ∧ q.Settled
  statements : ∀ (column : Int) (r : Reading) (p : Place), p.Settled →
    Traces eof (statements fuel column) r p fun ns q =>
      Spans.Run (some column) p ns q ∧ q.Settled
  branches : ∀ (r : Reading) (p : Place), p.Settled →
    Traces eof (branches fuel) r p fun bs q => Spans.Branches p bs q ∧ q.Settled

section StatementStep

variable (ih : StatementsTrace eof fuel)
include ih

/-- Statements in a column span the tokens that they are read from and end their lines. -/
theorem traces_statements (column : Int) (hp : p.Settled) :
    Traces eof (statements (fuel + 1) column) r p fun ns q =>
      Spans.Run (some column) p ns q ∧ q.Settled := by
  rw [statements]
  apply traces_bind traces_skipBreaks
  rintro _ r₁ _ rfl
  apply traces_peek
  intro tok htok
  have hcontinues : tok.Continues (some column) ↔
      ¬ (tok.kind = .endOfInput ∨ tok.pos.column ≠ column) := by
    simp [Token.Continues]
  split
  · rename_i hstop
    exact traces_pure ⟨.done ⟨tok, htok, fun hgo => hcontinues.mp hgo hstop⟩, hp.pastBreaks⟩
  · rename_i hmore
    have hfirst : tok.Continues (some column) := hcontinues.mpr hmore
    have hline : p.pastBreaks.StartsLine := hp.pastBreaks.startsLine htok hfirst.1
    apply traces_bind (ih.statement r₁ _)
    rintro first r₂ p₂ ⟨hstatement, hsettled⟩
    apply traces_bind (ih.statements column r₂ p₂ hsettled)
    rintro rest r₃ p₃ ⟨hrest, hsettled₃⟩
    exact traces_pure ⟨.more hline ⟨tok, htok, hfirst⟩ hstatement hrest, hsettled₃⟩

/-- A block spans the tokens that it is read from and ends its lines. -/
theorem traces_block :
    Traces eof (block (fuel + 1)) r p fun b q => Spans.Block p b.1 b.2 q ∧ q.Settled := by
  rw [block]
  apply traces_bind traces_opening
  intro _ r₁ p₁ hopens
  apply traces_peek
  intro first hfirst
  split
  · exact traces_throw
  · rename_i hend
    apply traces_bind (ih.statements first.pos.column r₁ p₁ (.inl hopens.startsLine))
    rintro body r₂ p₂ ⟨hrun, hsettled⟩
    -- the opening has skipped all line breaks, so the token that gives the column is in it
    have hsome : body ≠ [] := hrun.ne_nil hopens hfirst ⟨hend, by simp⟩
    have hnote : Traces eof (note first.pos body.length) r₂ p₂ fun _ q => q = p₂ := by
      intro hr₂
      exact ⟨p₂, ⟨hr₂.legal, hr₂.after, hr₂.final, hr₂.line⟩, rfl⟩
    apply traces_bind hnote
    rintro _ r₃ _ rfl
    exact traces_pure ⟨.mk hopens hfirst hsome hrun, hsettled⟩

/-- Branches span the tokens that they are read from and end their lines. -/
theorem traces_branches (hp : p.Settled) :
    Traces eof (branches (fuel + 1)) r p fun bs q => Spans.Branches p bs q ∧ q.Settled := by
  rw [branches]
  apply traces_if_peekIs (by decide)
  · intro word r₁ p₁ hkind hword
    apply traces_bind traces_whole
    intro condition r₂ p₂ hcondition
    apply traces_bind (ih.block r₂ p₂)
    rintro ⟨bodyTok, body⟩ r₃ p₃ ⟨hbody, hsettled⟩
    apply traces_bind (ih.branches r₃ p₃ hsettled)
    rintro rest r₄ p₄ ⟨hrest, hsettled₄⟩
    exact traces_pure
      ⟨.guarded (hword.ofKind hkind) hcondition hbody hrest, hsettled₄⟩
  · apply traces_if_peekIs (by decide)
    · intro word r₁ p₁ hkind hword
      apply traces_bind (ih.block r₁ p₁)
      rintro ⟨bodyTok, body⟩ r₂ p₂ ⟨hbody, hsettled⟩
      exact traces_pure ⟨.otherwise (hword.ofKind hkind) hbody, hsettled⟩
    · exact traces_pure ⟨.done, hp⟩

/-- A statement spans the tokens that it is read from and ends its lines. -/
theorem traces_statement :
    Traces eof (statement (fuel + 1)) r p fun n q => Spans.Statement p n q ∧ q.Settled := by
  rw [statement]
  apply traces_peek
  intro first hfirst
  split
  · apply traces_bind (traces_mark (by decide))
    rintro tok r₁ p₁ ⟨hkind, htok⟩
    apply traces_bind (traces_mark (by decide))
    rintro name r₂ p₂ ⟨hname, htaken⟩
    apply traces_bind traces_params
    rintro names r₃ p₃ ⟨p₄, p₅, hopen, hparams, hclose⟩
    apply traces_bind (ih.block r₃ p₃)
    rintro ⟨bodyTok, body⟩ r₄ q ⟨hbody, hsettled⟩
    exact traces_pure
      ⟨.definition hkind htok hname htaken hopen hparams hclose hbody, hsettled⟩
  · apply traces_bind (traces_mark (by decide))
    rintro tok r₁ p₁ ⟨hkind, htok⟩
    apply traces_bind traces_whole
    intro condition r₂ p₂ hcondition
    apply traces_bind (ih.block r₂ p₂)
    rintro ⟨bodyTok, body⟩ r₃ p₃ ⟨hbody, hsettled⟩
    apply traces_bind (ih.branches r₃ p₃ hsettled)
    rintro rest r₄ q ⟨hrest, hsettled₄⟩
    exact traces_pure ⟨.conditional hkind htok hcondition hbody hrest, hsettled₄⟩
  · apply traces_bind (traces_mark (by decide))
    rintro tok r₁ p₁ ⟨hkind, htok⟩
    apply traces_bind traces_whole
    intro condition r₂ p₂ hcondition
    apply traces_bind (ih.block r₂ p₂)
    rintro ⟨bodyTok, body⟩ r₃ q ⟨hbody, hsettled⟩
    exact traces_pure ⟨.loop hkind htok hcondition hbody, hsettled⟩
  · exact traces_simpleStatement hfirst

end StatementStep

/-- With any fuel, statements span the tokens that they are read from and end their lines. -/
theorem statementsTrace (eof : Token) (fuel : Nat) : StatementsTrace eof fuel := by
  induction fuel with
  | zero => constructor <;> intros <;> exact traces_throw
  | succ fuel ih =>
    exact {
      statement := fun _ _ => traces_statement ih
      block := fun _ _ => traces_block ih
      statements := fun column _ _ hp => traces_statements ih column hp
      branches := fun _ _ hp => traces_branches ih hp }

/-- A program spans all tokens of its source. -/
theorem traces_program (fuel : Nat) (hp : p.Settled) :
    Traces eof (program fuel) r p fun ns q => Spans.Run none p ns q := by
  induction fuel generalizing r p with
  | zero => exact traces_throw
  | succ fuel ih =>
    rw [program]
    apply traces_bind traces_skipBreaks
    rintro _ r₁ _ rfl
    apply traces_choice
    rintro b ⟨tok, htok, rfl⟩
    have hcontinues : tok.Continues none ↔ tok.isOneOf [.endOfInput] = false := by
      rw [Bool.eq_false_iff, ne_eq, isOneOf_singleton]
      simp [Token.Continues]
    split
    · rename_i hend
      exact traces_pure (.done ⟨tok, htok, by simp [hcontinues, hend]⟩)
    · rename_i hmore
      have hfirst : tok.Continues none := hcontinues.mpr (by simpa using hmore)
      have hline : p.pastBreaks.StartsLine := hp.pastBreaks.startsLine htok hfirst.1
      apply traces_bind ((statementsTrace eof fuel).statement r₁ _)
      rintro first r₂ p₂ ⟨hstatement, hsettled⟩
      apply traces_bind (ih hsettled)
      intro rest r₃ p₃ hrest
      exact traces_pure (.more hline ⟨tok, htok, hfirst⟩ hstatement hrest)

end Grammar

/-- Blocks are delimited by columns. If a text is read as a tree, all of it was made into tokens,
and its tree has a derivation from them in which every block has a statement, every statement and
every arm starts a line, the statements of a block stand in the column of the block's token and the
arms of a selection in one column, and no run of statements or arms could go on. -/
theorem blocks_delimited_by_columns (text : Text) (tree : Node)
    (h : (Parse.ofText text).outcome = .ok tree) :
    (TokenStream.ofText text).halt? = none ∧
      ∃ statements q, tree = .block .origin statements ∧
        Spans.Run none ⟨[], (TokenStream.ofText text).toList⟩ statements q := by
  obtain ⟨statements, left, hprogram, rfl⟩ := Parse.outcome_eq_ok_iff.mp h
  have hspelled : (Reading.ofStream (.ofText text)).Spelled :=
    ⟨TokenStream.ofText_legal text, Source.stream_spelled _⟩
  have hread := Grammar.program_accounts
    (Parse.fuelFor (TokenStream.ofText text).front.length) hspelled
  unfold Grammar.Ensures at hread
  rw [hprogram] at hread
  obtain ⟨hspends, -, eof, hend, -⟩ := hread
  have hfinal : (TokenStream.ofText text).final = .ok eof := hspends.final.symm.trans hend
  have htokens : (TokenStream.ofText text).toList = (TokenStream.ofText text).front ++ [eof] := by
    unfold TokenStream.toList
    rw [hfinal]
  have hstart : (Reading.ofStream (.ofText text)).IsAt eof
      ⟨[], (TokenStream.ofText text).toList⟩ :=
    ⟨TokenStream.ofText_legal text, htokens, hfinal, rfl⟩
  have hrun := Grammar.traces_program
    (Parse.fuelFor (TokenStream.ofText text).front.length) (.inl (.inl rfl)) hstart
  unfold Grammar.Ensures at hrun
  rw [hprogram] at hrun
  obtain ⟨q, -, hrun⟩ := hrun
  refine ⟨?_, statements, q, rfl, hrun⟩
  unfold TokenStream.halt?
  rw [hfinal]

/-- The end of the last arm ends a declaration as well, and a line that stands deeper than the
block ends the block. -/
theorem blocks_delimited_by_columns_deeper :
    let text := Text.ofString
      "fn f(x):\n\n  let y = match x:\n    | 1 -> 2 // two\n\n    | * -> 3\n  return y\n    f(1)"
    (Parse.ofText text).outcome.isOk = true ∧
      ∃ statements q, (Parse.ofText text).outcome = .ok (.block .origin statements) ∧
        Spans.Run none ⟨[], (TokenStream.ofText text).toList⟩ statements q := by
  intro text
  have hok : (Parse.ofText text).outcome.isOk = true := by decide +kernel
  refine ⟨hok, ?_⟩
  cases htree : (Parse.ofText text).outcome with
  | error e =>
    rw [htree] at hok
    exact absurd hok Bool.false_ne_true
  | ok tree =>
    obtain ⟨-, statements, q, rfl, hrun⟩ := blocks_delimited_by_columns text tree htree
    exact ⟨statements, q, rfl, hrun⟩

end Offside
