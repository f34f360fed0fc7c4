import Offside.Proofs.Tree.StatementComplete
import Offside.Proofs.Tree.Words

/-!
# Reading loses, invents and reorders no words

Whatever tree is read from a source, its words are the words of the source. Every piece of the
grammar gives a result that yields exactly the words which the piece has taken. The pieces call each
other, so this is proved for all of them together, by induction on the fuel, first for expressions
(`ExpressionsAccount`) and then for statements (`StatementsAccount`). A program is read to the end
of its source, so no word is left over.
-/

set_option autoImplicit false

namespace Offside

namespace Grammar

open Reading

/-! ## Expressions -/

/-- The words spell the node, and the node is not a value that is left out. -/
def SpelledBy (n : Node) (ws : List Word) : Prop := ws = n.yield ∧ n.isNil = false

section Literals

variable {r : Reading} {tok : Token}

/-- The literal of a whole number is spelled by its token. -/
theorem accounts_integerLiteral :
    Accounts (integerLiteral tok) r fun n ws => ws = [] ∧ SpelledBy n [⟨.integer, tok.value⟩] := by
  unfold integerLiteral
  dsimp only
  split
  · exact accounts_pure ⟨rfl, rfl, rfl⟩
  · exact accounts_throw

/-- The literal of a double is spelled by its token. -/
theorem accounts_floatLiteral :
    Accounts (floatLiteral tok) r fun n ws => ws = [] ∧ SpelledBy n [⟨.float, tok.value⟩] := by
  unfold floatLiteral
  cases Numeral.finite? tok.value.toList with
  | some x => exact accounts_pure ⟨rfl, rfl, rfl⟩
  | none => exact accounts_throw

/-- A string is spelled by its token. -/
theorem spelledBy_string (tok : Token) (hkind : tok.kind = .string) :
    SpelledBy (.string tok (.ofString tok.value)) tok.words := by
  refine ⟨?_, rfl⟩
  rw [Token.words_of_not_mark (by rw [hkind]; rfl), Token.word, hkind, Node.yield,
    Text.toString?_ofString]
  rfl

/-- A boolean is spelled by its token. -/
theorem spelledBy_boolean (tok : Token) (hkind : tok.kind = .boolean) (hspelled : tok.Spelled) :
    SpelledBy (.boolean tok (tok.value == "true")) tok.words := by
  refine ⟨?_, rfl⟩
  rw [Token.words_of_not_mark (by rw [hkind]; rfl), Token.word, hkind, Node.yield]
  rcases hspelled.truth hkind with hvalue | hvalue
  · rw [hvalue]
    rfl
  · rw [hvalue]
    rfl

end Literals

/-- What the pieces of the grammar for expressions account for with the given fuel. -/
structure ExpressionsAccount (fuel : Nat) : Prop where
  expression : ∀ (lv : List (List Kind)) (r : Reading), lv <:+ levels →
    Accounts (expression fuel lv) r SpelledBy
  operations : ∀ (level : List Kind) (tighter : List (List Kind)) (left : Node) (ws : List Word)
    (r : Reading), level :: tighter <:+ levels → SpelledBy left ws →
    Accounts (operations fuel level tighter left) r fun n more => SpelledBy n (ws ++ more)
  unary : ∀ r : Reading, Accounts (unary fuel) r SpelledBy
  atom : ∀ r : Reading, Accounts (atom fuel) r SpelledBy
  arguments : ∀ r : Reading, Accounts (arguments fuel) r fun ns ws => ws = Node.listYield [] ns
  moreArguments : ∀ r : Reading, Accounts (moreArguments fuel) r fun ns ws =>
    ws = Node.listYield [.fixed .comma] ns
  arms : ∀ (column : Int) (r : Reading), Accounts (arms fuel column) r fun as ws => ws = as.yield

section ExpressionStep

variable {fuel : Nat} {r : Reading} (ih : ExpressionsAccount fuel)
include ih

/-- An expression of all levels is spelled by the words it took. -/
theorem ExpressionsAccount.whole : Accounts (Grammar.expression fuel levels) r SpelledBy :=
  ih.expression levels r (List.suffix_refl _)

/-- An expression of some levels is spelled by the words it took, if its parts are. -/
theorem accounts_expression (lv : List (List Kind)) (hlv : lv <:+ levels) :
    Accounts (expression (fuel + 1) lv) r SpelledBy := by
  cases lv with
  | nil =>
    rw [expression]
    exact ih.unary r
  | cons level tighter =>
    rw [expression]
    have htighter : tighter <:+ levels := (List.suffix_cons level tighter).trans hlv
    apply accounts_bind (ih.expression tighter r htighter)
    intro left ws r₁ hleft
    exact ih.operations level tighter left ws r₁ hlv hleft

/-- The operator stands between the words of its operands. -/
theorem accounts_operations (level : List Kind) (tighter : List (List Kind)) (left : Node)
    (ws : List Word) (hlv : level :: tighter <:+ levels) (hleft : SpelledBy left ws) :
    Accounts (operations (fuel + 1) level tighter left) r fun n more =>
      SpelledBy n (ws ++ more) := by
  rw [operations]
  have hbinary : ∀ k ∈ level, k ∈ binaryOperators := fun k hk => mem_binaryOperators hlv hk
  apply accounts_next_or (looks_continuesWith level)
  · intro hend
    exact ne_endOfInput_of_binary (hbinary _ hend) rfl
  · intro tok r₁ hkind hspelled
    have hword := hspelled.words_of_operator (List.mem_append_right _ (hbinary _ hkind))
    have htighter : tighter <:+ levels := (List.suffix_cons level tighter).trans hlv
    apply accounts_bind (ih.expression tighter r₁ htighter)
    intro right ws₁ r₂ hright
    have hnode : SpelledBy (.binary tok tok.kind left right) (ws ++ (tok.words ++ ws₁)) := by
      refine ⟨?_, rfl⟩
      rw [hword, hleft.1, hright.1, Node.yield]
      rfl
    apply accounts_mono (ih.operations level tighter _ _ r₂ hlv hnode)
    intro n more hn
    simpa only [List.append_assoc] using hn
  · apply accounts_pure
    rw [List.append_nil]
    exact hleft

/-- An operand with its sign is spelled by the words it took, if its parts are. -/
theorem accounts_unary : Accounts (unary (fuel + 1)) r SpelledBy := by
  rw [unary]
  apply accounts_next_or (looks_peekIs unaryOperators) (by decide)
  · intro tok r₁ hkind hspelled
    have hword := hspelled.words_of_operator (List.mem_append_left _ hkind)
    apply accounts_bind (ih.unary r₁)
    intro operand ws r₂ hoperand
    apply accounts_pure
    refine ⟨?_, rfl⟩
    rw [hword, hoperand.1, Node.yield, List.append_nil]
    rfl
  · exact ih.atom r

/-- Arguments yield the words they took, if their expressions do. -/
theorem accounts_arguments :
    Accounts (arguments (fuel + 1)) r fun ns ws => ws = Node.listYield [] ns := by
  rw [arguments]
  apply accounts_choice (looks_peekIs _)
  intro b
  dsimp only
  split
  · apply accounts_mono (accounts_close [])
    rintro ns ws ⟨rfl, rfl⟩
    rfl
  · apply accounts_bind ih.whole
    intro arg ws r₁ harg
    apply accounts_bind (ih.moreArguments r₁)
    rintro rest more r₂ rfl
    apply accounts_mono (accounts_close (arg :: rest))
    rintro ns last ⟨rfl, rfl⟩
    rw [harg.1, Node.listYield, List.append_nil]
    rfl

/-- Further arguments yield the words they took, if their expressions do. -/
theorem accounts_moreArguments :
    Accounts (moreArguments (fuel + 1)) r fun ns ws =>
      ws = Node.listYield [.fixed .comma] ns := by
  rw [moreArguments]
  apply accounts_next_or (looks_peekIs [.comma]) (by decide)
  · intro comma r₁ hkind hspelled
    have hword := hspelled.words_eq (List.mem_singleton.mp hkind) (by decide) rfl
    apply accounts_bind ih.whole
    intro arg ws r₂ harg
    apply accounts_bind (ih.moreArguments r₂)
    rintro rest more r₃ rfl
    apply accounts_pure
    rw [hword, harg.1, Node.listYield, List.append_nil]
  · exact accounts_pure rfl

/-- The result of an arm and the arms after it. -/
theorem accounts_armResult (column : Int) (f : Node → Arms → Arms) :
    Accounts (do
      let _ ← expect [.arrow]
      let result ← expression fuel levels
      endLine
      let rest ← Grammar.arms fuel column
      pure (f result rest)) r fun as ws =>
        ∃ result rest, as = f result rest ∧
          ws = .fixed .arrow :: (result.yield ++ rest.yield) := by
  apply accounts_bind (accounts_fixed (by decide) rfl)
  rintro arrow ws r₁ rfl
  apply accounts_bind ih.whole
  intro result ws r₂ hresult
  apply accounts_bind accounts_endLine
  rintro _ _ r₃ rfl
  apply accounts_bind (ih.arms column r₃)
  rintro rest more r₄ rfl
  apply accounts_pure
  refine ⟨result, rest, rfl, ?_⟩
  rw [hresult.1, List.append_nil]
  rfl

/-- Arms yield the words they took, if their parts do. -/
theorem accounts_arms (column : Int) :
    Accounts (arms (fuel + 1) column) r fun as ws => ws = as.yield := by
  rw [arms]
  apply accounts_bind accounts_skipBreaks
  rintro _ _ r₁ rfl
  apply accounts_peek
  intro tok htok
  split
  · rename_i hbar
    apply accounts_next htok (by rw [hbar.1]; decide)
    intro r₂ hspelled
    have hword := hspelled.words_eq hbar.1 (by decide) rfl
    apply accounts_next_or (looks_peekIs [.times]) (by decide)
    · intro star r₃ hkind hstar
      have htimes := hstar.words_eq (List.mem_singleton.mp hkind) (by decide) rfl
      apply accounts_mono (accounts_armResult ih column _)
      rintro as ws ⟨result, rest, rfl, rfl⟩
      rw [hword, htimes, Arms.yield]
      rfl
    · apply accounts_bind ih.whole
      intro pattern ws r₃ hpattern
      apply accounts_mono (accounts_armResult ih column _)
      rintro as more ⟨result, rest, rfl, rfl⟩
      rw [hword, hpattern.1, Arms.yield]
      rfl
  · exact accounts_pure rfl

/-- A selection after its first word. -/
theorem accounts_select (tok : Token) :
    Accounts (do
      let subject ← Grammar.expression fuel levels
      opening
      let first ← peek
      if first.kind = .bar then
        let arms ← Grammar.arms fuel first.pos.column
        pure (Node.select tok subject arms)
      else fail (.unexpected first.kind [.bar] "" first.pos)) r fun n ws =>
        SpelledBy n (.fixed .matchWord :: ws) := by
  apply accounts_bind ih.whole
  intro subject ws r₁ hsubject
  apply accounts_bind accounts_opening
  rintro _ _ r₂ rfl
  apply accounts_peek
  intro first _
  split
  · apply accounts_bind (ih.arms first.pos.column r₂)
    rintro arms more r₃ rfl
    apply accounts_pure
    refine ⟨?_, rfl⟩
    rw [hsubject.1, Node.yield, List.append_nil]
    rfl
  · exact accounts_throw

/-- An atom is spelled by the words it took, if its parts are. -/
theorem accounts_atom : Accounts (atom (fuel + 1)) r SpelledBy := by
  rw [atom]
  apply accounts_bind (accounts_expect (by decide))
  rintro tok ws r₁ ⟨hkind, hspelled, rfl⟩
  simp only [atomKinds, List.mem_cons, List.not_mem_nil, or_false] at hkind
  have hwords : tok.kind.isMark = false → tok.words = [⟨tok.kind, tok.value⟩] :=
    fun h => Token.words_of_not_mark h
  rcases hkind with hkind | hkind | hkind | hkind | hkind | hkind | hkind <;>
    simp only [hkind] at hwords ⊢
  · apply accounts_mono accounts_integerLiteral
    rintro n _ ⟨rfl, hn⟩
    rw [hwords rfl]
    exact hn
  · apply accounts_mono accounts_floatLiteral
    rintro n _ ⟨rfl, hn⟩
    rw [hwords rfl]
    exact hn
  · apply accounts_pure
    rw [List.append_nil]
    exact spelledBy_string tok hkind
  · apply accounts_pure
    rw [List.append_nil]
    exact spelledBy_boolean tok hkind hspelled
  · -- parentheses are no words, so the inner expression is all there is
    have hparen : tok.words = [] := Token.words_of_mark (by rw [hkind]; rfl)
    apply accounts_bind ih.whole
    intro inner ws r₂ hinner
    apply accounts_bind (accounts_mark rfl (by decide))
    rintro _ _ r₃ rfl
    apply accounts_pure
    rw [hparen, List.append_nil, List.append_nil]
    exact hinner
  · have hname : tok.words = [.name tok.value] := hwords rfl
    apply accounts_next_or (looks_peekIs [.leftParen]) (by decide)
    · intro paren r₂ hparen _
      rw [List.mem_singleton] at hparen
      have hnone : paren.words = [] := Token.words_of_mark (by rw [hparen]; rfl)
      apply accounts_bind (ih.arguments r₂)
      rintro args _ r₃ rfl
      apply accounts_pure
      refine ⟨?_, rfl⟩
      rw [hname, hnone, Node.yield, List.append_nil]
      rfl
    · apply accounts_pure
      rw [hname]
      exact ⟨rfl, rfl⟩
  · apply accounts_mono (accounts_select ih tok)
    intro n ws hn
    rw [hspelled.words_eq hkind (by decide) rfl]
    exact hn

end ExpressionStep

/-- With any fuel, expressions yield the words they took. -/
theorem expressionsAccount (fuel : Nat) : ExpressionsAccount fuel := by
  induction fuel with
  | zero => constructor <;> intros <;> exact accounts_throw
  | succ fuel ih =>
    exact {
      expression := fun lv _ hlv => accounts_expression ih lv hlv
      operations := fun level tighter left ws _ hlv hleft =>
        accounts_operations ih level tighter left ws hlv hleft
      unary := fun _ => accounts_unary ih
      atom := fun _ => accounts_atom ih
      arguments := fun _ => accounts_arguments ih
      moreArguments := fun _ => accounts_moreArguments ih
      arms := fun column _ => accounts_arms ih column }

/-! ## Statements -/

section Lines

variable {fuel : Nat} {r : Reading}

/-- Further parameters yield the words they took. -/
theorem accounts_moreParams :
    Accounts (moreParams fuel) r fun names ws => ws = Word.names [.fixed .comma] names := by
  induction fuel generalizing r with
  | zero => exact accounts_throw
  | succ fuel ih =>
    rw [moreParams]
    apply accounts_next_or (looks_peekIs [.comma]) (by decide)
    · intro comma r₁ hkind hspelled
      have hword := hspelled.words_eq (List.mem_singleton.mp hkind) (by decide) rfl
      apply accounts_bind accounts_name
      rintro param _ r₂ rfl
      apply accounts_bind ih
      rintro rest _ r₃ rfl
      apply accounts_pure
      rw [hword, Word.names, List.append_nil]
      rfl
    · exact accounts_pure rfl

/-- Parameters yield the words they took. -/
theorem accounts_params :
    Accounts (params fuel) r fun names ws => ws = Word.names [] names := by
  rw [params]
  apply accounts_bind (accounts_mark rfl (by decide))
  rintro paren _ r₁ rfl
  apply accounts_choice (looks_peekIs _)
  intro b
  dsimp only
  split
  · apply accounts_mono (accounts_close [])
    rintro names ws ⟨rfl, rfl⟩
    rfl
  · apply accounts_bind accounts_name
    rintro param _ r₂ rfl
    apply accounts_bind accounts_moreParams
    rintro rest _ r₃ rfl
    apply accounts_mono (accounts_close (param.value :: rest))
    rintro names ws ⟨rfl, rfl⟩
    rw [Word.names, List.append_nil]
    rfl

/-- A declaration yields the words it took. -/
theorem accounts_declaration : Accounts (declaration fuel) r fun n ws => ws = n.yield := by
  rw [declaration]
  apply accounts_bind (accounts_fixed (by decide) rfl)
  rintro tok _ r₁ rfl
  apply accounts_bind accounts_name
  rintro name _ r₂ rfl
  apply accounts_next_or (looks_peekIs [.assign]) (by decide)
  · intro sign r₃ hkind hspelled
    have hword := hspelled.words_eq (List.mem_singleton.mp hkind) (by decide) rfl
    apply accounts_bind (expressionsAccount fuel).whole
    intro value ws r₄ hvalue
    apply accounts_pure
    rw [hword, hvalue.1, Node.yield, hvalue.2, List.append_nil]
    rfl
  · exact accounts_pure rfl

/-- A `return` yields the words it took. -/
theorem accounts_ret {first : Token} (hfirst : r.next? = some first)
    (hkind : first.kind = .returnWord) : Accounts (ret fuel) r fun n ws => ws = n.yield := by
  rw [ret]
  apply accounts_next hfirst (by rw [hkind]; decide)
  intro r₁ hspelled
  have hword := hspelled.words_eq hkind (by decide) rfl
  apply accounts_choice (looks_peekIs _)
  intro b
  split
  · apply accounts_pure
    rw [hword]
    rfl
  · apply accounts_bind (expressionsAccount fuel).whole
    intro value ws r₂ hvalue
    apply accounts_pure
    rw [hword, hvalue.1, List.append_nil]
    rfl

/-- An expression or an assignment yields the words it took. -/
theorem accounts_expressionStatement :
    Accounts (expressionStatement fuel) r fun n ws => ws = n.yield := by
  rw [expressionStatement]
  apply accounts_bind (expressionsAccount fuel).whole
  intro target ws r₁ htarget
  apply accounts_next_or (looks_continuesWith [.assign]) (by decide)
  · intro sign r₂ hkind hspelled
    have hword := hspelled.words_eq (List.mem_singleton.mp hkind) (by decide) rfl
    split
    · apply accounts_bind (expressionsAccount fuel).whole
      intro value more r₃ hvalue
      apply accounts_pure
      rw [hword, htarget.1, hvalue.1, List.append_nil]
      rfl
    · exact accounts_throw
  · apply accounts_pure
    rw [htarget.1, List.append_nil]

/-- A statement of one line yields the words it took. -/
theorem accounts_simpleStatement {first : Token} (hfirst : r.next? = some first) :
    Accounts (simpleStatement fuel first.kind) r fun n ws => ws = n.yield := by
  have hend : ∀ p : Grammar Node, Accounts p r (fun n ws => ws = n.yield) →
      Accounts (do
        let n ← p
        endLine
        pure n) r fun n ws => ws = n.yield := by
    intro p hp
    apply accounts_bind hp
    rintro n _ r₁ rfl
    apply accounts_bind accounts_endLine
    rintro _ _ r₂ rfl
    apply accounts_pure
    rw [List.append_nil, List.append_nil]
  unfold simpleStatement
  dsimp only
  split
  · exact hend _ accounts_declaration
  · split
    · rename_i hkind
      exact hend _ (accounts_ret hfirst hkind)
    · exact hend _ accounts_expressionStatement

end Lines

/-- What the pieces of the grammar for statements account for with the given fuel. -/
structure StatementsAccount (fuel : Nat) : Prop where
  statement : ∀ r : Reading, Accounts (statement fuel) r fun n ws => ws = n.yield
  block : ∀ r : Reading, Accounts (block fuel) r fun b ws =>
    ws = .fixed .colon :: Node.allYield b.2
  statements : ∀ (column : Int) (r : Reading), Accounts (statements fuel column) r fun ns ws =>
    ws = Node.allYield ns
  branches : ∀ r : Reading, Accounts (branches fuel) r fun bs ws => ws = bs.yield .elifWord

section StatementStep

variable {fuel : Nat} {r : Reading} (ih : StatementsAccount fuel)
include ih

/-- Statements in a column yield the words they took, if each of them does. -/
theorem accounts_statements (column : Int) :
    Accounts (statements (fuel + 1) column) r fun ns ws => ws = Node.allYield ns := by
  rw [statements]
  apply accounts_bind accounts_skipBreaks
  rintro _ _ r₁ rfl
  apply accounts_peek
  intro tok _
  split
  · exact accounts_pure rfl
  · apply accounts_bind (ih.statement r₁)
    rintro first _ r₂ rfl
    apply accounts_bind (ih.statements column r₂)
    rintro rest _ r₃ rfl
    apply accounts_pure
    rw [Node.allYield, List.append_nil]
    rfl

/-- A block yields the words it took behind its colon, if its statements do. -/
theorem accounts_block :
    Accounts (block (fuel + 1)) r fun b ws => ws = .fixed .colon :: Node.allYield b.2 := by
  rw [block]
  apply accounts_bind accounts_opening
  rintro _ _ r₁ rfl
  apply accounts_peek
  intro first _
  split
  · exact accounts_throw
  · apply accounts_bind (ih.statements first.pos.column r₁)
    rintro body _ r₂ rfl
    have hnote : Accounts (note first.pos body.length) r₂ fun _ ws => ws = [] := by
      intro _
      exact ⟨[], rfl, ⟨List.suffix_refl _, rfl⟩, rfl⟩
    apply accounts_bind hnote
    rintro _ _ r₃ rfl
    apply accounts_pure
    rw [List.append_nil, List.append_nil]
    rfl

/-- A condition and its body. -/
theorem accounts_guarded {β : Type} {Q : β → List Word → Prop}
    {f : Node → Token × List Node → Grammar β}
    (hf : ∀ condition b r', Accounts (f condition b) r' fun a more =>
      Q a (condition.yield ++ .fixed .colon :: (Node.allYield b.2 ++ more))) :
    Accounts (do
      let condition ← expression fuel levels
      let b ← Grammar.block fuel
      f condition b) r Q := by
  apply accounts_bind (expressionsAccount fuel).whole
  intro condition ws r₁ hcondition
  apply accounts_bind (ih.block r₁)
  rintro b _ r₂ rfl
  rw [hcondition.1]
  exact hf condition b r₂

/-- Branches yield the words they took, if their parts do. -/
theorem accounts_branches :
    Accounts (branches (fuel + 1)) r fun bs ws => ws = bs.yield .elifWord := by
  rw [branches]
  apply accounts_next_or (looks_peekIs [.elifWord]) (by decide)
  · intro word r₁ hkind hspelled
    have hword := hspelled.words_eq (List.mem_singleton.mp hkind) (by decide) rfl
    rw [hword]
    apply accounts_guarded ih
    rintro condition ⟨bodyTok, body⟩ r₂
    apply accounts_bind (ih.branches r₂)
    rintro rest _ r₃ rfl
    apply accounts_pure
    rw [Branches.yield, List.append_nil]
    rfl
  · apply accounts_next_or (looks_peekIs [.elseWord]) (by decide)
    · intro word r₁ hkind hspelled
      have hword := hspelled.words_eq (List.mem_singleton.mp hkind) (by decide) rfl
      apply accounts_bind (ih.block r₁)
      rintro ⟨bodyTok, body⟩ _ r₂ rfl
      apply accounts_pure
      rw [hword, Branches.yield, List.append_nil]
      rfl
    · exact accounts_pure rfl

/-- A statement yields the words it took, if its parts do. -/
theorem accounts_statement : Accounts (statement (fuel + 1)) r fun n ws => ws = n.yield := by
  rw [statement]
  apply accounts_peek
  intro first hfirst
  split
  · apply accounts_bind (accounts_fixed (by decide) rfl)
    rintro tok _ r₁ rfl
    apply accounts_bind accounts_name
    rintro name _ r₂ rfl
    apply accounts_bind accounts_params
    rintro names _ r₃ rfl
    apply accounts_bind (ih.block r₃)
    rintro ⟨bodyTok, body⟩ _ r₄ rfl
    apply accounts_pure
    rw [Node.yield, List.append_nil]
    rfl
  · apply accounts_bind (accounts_fixed (by decide) rfl)
    rintro tok _ r₁ rfl
    apply accounts_guarded ih
    rintro condition ⟨bodyTok, body⟩ r₂
    apply accounts_bind (ih.branches r₂)
    rintro rest _ r₃ rfl
    apply accounts_pure
    rw [Node.yield, Branches.yield, List.append_nil]
    rfl
  · apply accounts_bind (accounts_fixed (by decide) rfl)
    rintro tok _ r₁ rfl
    apply accounts_guarded ih
    rintro condition ⟨bodyTok, body⟩ r₂
    apply accounts_pure
    rw [Node.yield, List.append_nil]
    rfl
  · exact accounts_simpleStatement hfirst

end StatementStep

/-- With any fuel, statements yield the words they took. -/
theorem statementsAccount (fuel : Nat) : StatementsAccount fuel := by
  induction fuel with
  | zero => constructor <;> intros <;> exact accounts_throw
  | succ fuel ih =>
    exact {
      statement := fun _ => accounts_statement ih
      block := fun _ => accounts_block ih
      statements := fun column _ => accounts_statements ih column
      branches := fun _ => accounts_branches ih }

/-- A program is read to the end of its source. -/
theorem program_accounts (fuel : Nat) {r : Reading} (hr : r.Spelled) :
    Ensures (fun _ => True) (program fuel) r fun ns r' =>
      r.Spends (Node.allYield ns) r' ∧ r'.front = [] ∧
        ∃ t, r'.final = .ok t ∧ t.kind = .endOfInput := by
  induction fuel generalizing r with
  | zero => exact ensures_throw trivial
  | succ fuel ih =>
    rw [program]
    apply ensures_bind (accounts_skipBreaks hr)
    rintro _ r₁ ⟨_, rfl, hskip⟩
    have hr₁ := hskip.toLeads.spelled hr
    apply ensures_bind (ensures_peekIs hr₁.legal _).weaken
    rintro b r₂ ⟨rfl, t, ht, rfl⟩
    split
    · rename_i hone
      have hend : t.kind = .endOfInput := isOneOf_singleton.mp hone
      apply ensures_pure
      -- no token in front of the end is an end, so none is left
      have hfinal := hr₁.legal.final
      unfold Reading.next? at ht
      cases hf : r₂.front with
      | cons u rest =>
        rw [hf] at ht
        injection ht with ht
        subst ht
        have hlegal := hr₁.legal.front u (by rw [hf]; exact List.mem_cons_self)
        exact absurd hend hlegal.notEnd
      | nil =>
        rw [hf] at ht
        cases hfin : r₂.final with
        | error e => simp [hfin] at ht
        | ok u =>
          simp only [hfin] at hfinal
          exact ⟨hskip, rfl, u, rfl, hfinal⟩
    · apply ensures_bind ((statementsAccount fuel).statement r₂ hr₁)
      rintro first r₃ ⟨_, rfl, hfirst⟩
      apply ensures_bind (ih (hfirst.toLeads.spelled hr₁))
      rintro rest r₄ ⟨hrest, hfront, hfinal⟩
      apply ensures_pure
      exact ⟨(hskip.trans hfirst).trans hrest, hfront, hfinal⟩

end Grammar

/-- Reading loses, invents and reorders nothing. If a text is read as a tree, all of it was made
into tokens; and these, without line breaks, parentheses and the end of the source, are word for
word what the tree yields. -/
theorem parse_yields_tokens (text : Text) (tree : Node)
    (h : (Parse.ofText text).outcome = .ok tree) :
    (TokenStream.ofText text).halt? = none ∧
      ((TokenStream.ofText text).toList.filter fun t => !t.kind.isMark).map Token.word =
        tree.yield := by
  have hspelled : (Reading.ofStream (.ofText text)).Spelled :=
    ⟨TokenStream.ofText_legal text, Source.stream_spelled _⟩
  have hprogram := Grammar.program_accounts
    (Parse.fuelFor (TokenStream.ofText text).front.length) hspelled
  unfold Grammar.Ensures at hprogram
  unfold Parse.ofText Parse.ofStream at h
  cases hr : Grammar.program (Parse.fuelFor (TokenStream.ofText text).front.length)
      (.ofStream (.ofText text)) with
  | error e left => simp [hr] at h
  | ok statements left =>
    rw [hr] at h hprogram
    injection h with h
    subst h
    obtain ⟨hspends, hfront, t, hfinal, hend⟩ := hprogram
    have hfinal' : (TokenStream.ofText text).final = .ok t := hspends.final.symm.trans hfinal
    have hwords := hspends.words
    unfold Reading.words at hwords
    rw [hfront, List.flatMap_nil, List.append_nil, Token.flatMap_words] at hwords
    constructor
    · unfold TokenStream.halt?
      rw [hfinal']
    · have hmark : t.kind.isMark = true := by rw [hend]; rfl
      unfold TokenStream.toList
      rw [hfinal', Node.yield, ← hwords]
      simp [hmark, Reading.ofStream]

/-- The rendering of a program has parentheses and line breaks that its tree does not show, and
words that it does. -/
theorem parse_yields_tokens_rendering :
    let choice : Node := .select .origin (.reference .origin "x")
      (.pattern .origin (.boolean .origin true) (.string .origin [34])
        (.wildcard .origin (.unary .origin .minus (.integer .origin 1)) .done))
    let tree : Node := .block .origin
      [.declaration .origin "x" (.nil .origin),
        .definition .origin "f" ["a", "b"] .origin
          [.conditional .origin (.guarded (.reference .origin "a") .origin
            [.ret .origin (.binary .origin .plus choice (.reference .origin "b"))]
            (.guarded (.reference .origin "b") .origin [.ret .origin (.nil .origin)]
              (.otherwise .origin [.assignment .origin "x" choice])))],
        .loop .origin (.call .origin "f" [.reference .origin "x", choice]) .origin
          [.call .origin "print" []]]
    ∃ tree', (Parse.ofText tree.rendering).outcome = .ok tree' ∧ tree'.bare = tree.bare ∧
      ((TokenStream.ofText tree.rendering).toList.filter fun t => !t.kind.isMark).map Token.word =
        tree'.yield := by
  intro choice tree
  have hprogram : tree.isProgram = true := by decide +kernel
  have hfloats : tree.isFloatFree = true := by decide +kernel
  obtain ⟨tree', hread, hbare⟩ := Parse.ofText_rendering hprogram hfloats
  exact ⟨tree', hread, hbare, (parse_yields_tokens tree.rendering tree' hread).2⟩

end Offside
