import Offside.Proofs.Token.Spelling
import Offside.Proofs.Tree.WellFormed

/-!
# The canonical rendering of programs

Every statement is written on a line of its own, and every body one level deeper than the line above
it. Operations and selections stand in parentheses where they are operands of an operator. A
selection at the end of a line goes on with its arms, one level deeper, and its last arm ends the
line; anywhere else it stands in parentheses, and the closing one starts a line. The arguments of a
call, subjects, patterns and conditions need no parentheses unless they are selections.

All that is written can be read back token by token (`Node.allProper_allLines`), unless the tree has a
number with a point, whose digits are not kept here.
-/

set_option autoImplicit false

namespace Offside

namespace Node

/-- Whether a node is a selection. -/
def isSelect : Node → Bool
  | .select .. => true
  | _ => false

/-- Whether a node is an operation or a selection. -/
def isCompound : Node → Bool
  | .unary .. | .binary .. | .select .. => true
  | _ => false

/-- An expression in parentheses, of which the closing one starts a line after a selection. -/
def inParens (depth : Nat) (e : Node) (ps : List Piece) : List Piece :=
  .fixed .leftParen ::
    (ps ++ ((if e.isSelect then [.indent depth] else []) ++ [.fixed .rightParen]))

/-- An expression as an operand. -/
def asOperand (depth : Nat) (e : Node) (ps : List Piece) : List Piece :=
  if e.isCompound then e.inParens depth ps else ps

/-- An expression as a part of a line. -/
def asPart (depth : Nat) (e : Node) (ps : List Piece) : List Piece :=
  if e.isSelect then e.inParens depth ps else ps

/-- An expression as the end of a line. -/
def asEnd (e : Node) (ps : List Piece) : List Piece :=
  if e.isSelect then ps else ps ++ [.newline]

end Node

mutual

/-- The pieces of an expression on a line of the given depth; those of a selection end with a line
break. -/
def Node.pieces (depth : Nat) : Node → List Piece
  | .reference _ name => [.word .identifier name]
  | .integer _ n => [.word .integer n.toNatClampNeg.repr]
  | .string _ t => [.word .string (t.toString?.getD "")]
  | .boolean _ b => [.word .boolean (if b then "true" else "false")]
  | .unary _ op operand => .fixed op :: operand.asOperand depth (operand.pieces depth)
  | .binary _ op left right =>
      left.asOperand depth (left.pieces depth) ++
        .fixed op :: right.asOperand depth (right.pieces depth)
  | .call _ name args =>
      .word .identifier name :: .fixed .leftParen ::
        (Node.listed depth [] args ++ [.fixed .rightParen])
  | .select _ subject arms =>
      .fixed .matchWord :: (subject.asPart depth (subject.pieces depth) ++
        .fixed .colon :: .newline :: arms.pieces (depth + 1))
  | _ => []

/-- The pieces of arguments, with the separator in front of the first one. -/
def Node.listed (depth : Nat) : (separator : List Piece) → List Node → List Piece
  | _, [] => []
  | separator, e :: rest =>
      separator ++ (e.asPart depth (e.pieces depth) ++ Node.listed depth [.fixed .comma] rest)

/-- The lines of arms. -/
def Arms.pieces (depth : Nat) : Arms → List Piece
  | .done => []
  | .pattern _ pattern result rest =>
      .indent depth :: .fixed .bar :: (pattern.asPart depth (pattern.pieces depth) ++
        .fixed .arrow :: (result.asEnd (result.pieces depth) ++ rest.pieces depth))
  | .wildcard _ result rest =>
      .indent depth :: .fixed .bar :: .fixed .times :: .fixed .arrow ::
        (result.asEnd (result.pieces depth) ++ rest.pieces depth)

end

namespace Node

/-- The pieces of an expression as an operand. -/
def operand (depth : Nat) (e : Node) : List Piece := e.asOperand depth (e.pieces depth)

/-- The pieces of an expression as a part of a line. -/
def part (depth : Nat) (e : Node) : List Piece := e.asPart depth (e.pieces depth)

/-- The pieces of an expression as the end of a line, with the line break. -/
def ending (depth : Nat) (e : Node) : List Piece := e.asEnd (e.pieces depth)

/-- The pieces of parameters, with the separator in front of the first one. -/
def paramPieces : (separator : List Piece) → List String → List Piece
  | _, [] => []
  | separator, name :: rest =>
      separator ++ .word .identifier name :: paramPieces [.fixed .comma] rest

end Node

mutual

/-- The lines of a statement. -/
def Node.lines (depth : Nat) : Node → List Piece
  | .declaration _ name value =>
      .indent depth :: .fixed .letWord :: .word .identifier name ::
        (if value.isNil then [.newline] else .fixed .assign :: value.ending depth)
  | .assignment _ name value =>
      .indent depth :: .word .identifier name :: .fixed .assign :: value.ending depth
  | .ret _ value =>
      .indent depth :: .fixed .returnWord ::
        (if value.isNil then [.newline] else value.ending depth)
  | .definition _ name params _ body =>
      .indent depth :: .fixed .fnWord :: .word .identifier name :: .fixed .leftParen ::
        (Node.paramPieces [] params ++ .fixed .rightParen :: .fixed .colon :: .newline ::
          Node.allLines (depth + 1) body)
  | .conditional _ branches => branches.lines depth .ifWord
  | .loop _ condition _ body =>
      .indent depth :: .fixed .whileWord :: (condition.part depth ++
        .fixed .colon :: .newline :: Node.allLines (depth + 1) body)
  | e => .indent depth :: e.ending depth

/-- The lines of statements one after the other. -/
def Node.allLines (depth : Nat) : List Node → List Piece
  | [] => []
  | n :: rest => n.lines depth ++ Node.allLines depth rest

/-- The lines of branches; the word is in front of the first condition. -/
def Branches.lines (depth : Nat) : (word : Kind) → Branches → List Piece
  | _, .done => []
  | _, .otherwise _ body =>
      .indent depth :: .fixed .elseWord :: .fixed .colon :: .newline ::
        Node.allLines (depth + 1) body
  | word, .guarded condition _ body rest =>
      .indent depth :: .fixed word :: (condition.part depth ++ .fixed .colon :: .newline ::
        (Node.allLines (depth + 1) body ++ rest.lines depth .elifWord))

end

/-- The text of a program in its canonical rendering. -/
def Node.rendering : Node → Text
  | .block _ statements => .ofChars (Piece.written (Node.allLines 0 statements))
  | _ => []

mutual

/-- Whether no number of a tree has a point. -/
def Node.isFloatFree : Node → Bool
  | .float .. => false
  | .missing | .reference .. | .integer .. | .string .. | .boolean .. | .nil .. => true
  | .block _ statements => Node.areFloatFree statements
  | .declaration _ _ value | .assignment _ _ value | .ret _ value => value.isFloatFree
  | .unary _ _ operand => operand.isFloatFree
  | .binary _ _ left right => left.isFloatFree && right.isFloatFree
  | .definition _ _ _ _ body => Node.areFloatFree body
  | .call _ _ args => Node.areFloatFree args
  | .conditional _ branches => branches.isFloatFree
  | .loop _ condition _ body => condition.isFloatFree && Node.areFloatFree body
  | .select _ subject arms => subject.isFloatFree && arms.isFloatFree

/-- Whether no number of several trees has a point. -/
def Node.areFloatFree : List Node → Bool
  | [] => true
  | n :: rest => n.isFloatFree && Node.areFloatFree rest

/-- Whether no number of the branches has a point. -/
def Branches.isFloatFree : Branches → Bool
  | .done => true
  | .otherwise _ body => Node.areFloatFree body
  | .guarded condition _ body rest =>
      condition.isFloatFree && Node.areFloatFree body && rest.isFloatFree

/-- Whether no number of the arms has a point. -/
def Arms.isFloatFree : Arms → Bool
  | .done => true
  | .pattern _ pattern result rest =>
      pattern.isFloatFree && result.isFloatFree && rest.isFloatFree
  | .wildcard _ result rest => result.isFloatFree && rest.isFloatFree

end

/-! ## What is written can be read -/

namespace Piece

/-- All pieces can be read back. -/
def AllProper (ps : List Piece) : Prop := ∀ p ∈ ps, p.isProper = true

/-- That nothing is written can be read back. -/
theorem allProper_nil : AllProper [] := fun _ h => absurd h List.not_mem_nil

/-- Pieces can be read back if the first one and the others can. -/
theorem allProper_cons {p : Piece} {ps : List Piece} :
    AllProper (p :: ps) ↔ p.isProper = true ∧ AllProper ps := List.forall_mem_cons

/-- A single proper piece can be read back. -/
theorem allProper_singleton {p : Piece} (h : p.isProper = true) : AllProper [p] :=
  allProper_cons.mpr ⟨h, allProper_nil⟩

/-- Two lists of pieces can be read back if each of them can. -/
theorem allProper_append {ps qs : List Piece} :
    AllProper (ps ++ qs) ↔ AllProper ps ∧ AllProper qs := List.forall_mem_append

/-- An operator in front of an operand can be read back. -/
theorem isProper_fixed_of_unary {k : Kind} (hk : k ∈ Grammar.unaryOperators) :
    (fixed k).isProper = true := by
  revert k
  decide

/-- An operator between operands can be read back. -/
theorem isProper_fixed_of_binary {k : Kind} (hk : k ∈ Grammar.binaryOperators) :
    (fixed k).isProper = true := by
  revert k
  decide

end Piece

open Piece

namespace Node

variable {depth : Nat} {e : Node} {ps : List Piece}

/-- What can be read back can be so in parentheses. -/
theorem allProper_inParens (h : AllProper ps) : AllProper (e.inParens depth ps) := by
  unfold inParens
  rw [allProper_cons, allProper_append, allProper_append]
  refine ⟨rfl, h, ?_, allProper_singleton rfl⟩
  split
  · exact allProper_singleton rfl
  · exact allProper_nil

/-- What can be read back can be so as an operand. -/
theorem allProper_asOperand (h : AllProper ps) : AllProper (e.asOperand depth ps) := by
  unfold asOperand
  split
  · exact allProper_inParens h
  · exact h

/-- What can be read back can be so as a part of an expression. -/
theorem allProper_asPart (h : AllProper ps) : AllProper (e.asPart depth ps) := by
  unfold asPart
  split
  · exact allProper_inParens h
  · exact h

/-- What can be read back can be so at the end of a line. -/
theorem allProper_asEnd (h : AllProper ps) : AllProper (e.asEnd ps) := by
  unfold asEnd
  split
  · exact h
  · exact allProper_append.mpr ⟨h, allProper_singleton rfl⟩

end Node

/-- A number is written as a whole number. -/
theorem isWhole_repr (n : Nat) : Numeral.isWhole n.repr.toList = true := by
  have hdigits : ∀ c ∈ Nat.toDigits 10 n, Numeral.isDigit c = true := by
    intro c hc
    have hdigit := Nat.isDigit_of_mem_toDigits (by decide) (by decide) hc
    unfold Char.isDigit at hdigit
    unfold Numeral.isDigit
    rw [Bool.and_eq_true, decide_eq_true_eq, decide_eq_true_eq] at hdigit ⊢
    exact hdigit
  rw [Nat.repr, String.toList_ofList, Numeral.isWhole, Bool.and_eq_true, List.all_eq_true]
  refine ⟨?_, hdigits⟩
  cases hds : Nat.toDigits 10 n with
  | nil => exact absurd hds Nat.toDigits_ne_nil
  | cons d ds => rfl

/-- The digits of a number stand for that number. -/
theorem ofDigits_repr (n : Nat) : Numeral.ofDigits n.repr.toList = n := by
  rw [Nat.repr, String.toList_ofList]
  exact Nat.ofDigitChars_toDigits (by decide) (by decide)

/-- A whole number that is not negative takes no more than 63 bits. -/
theorem toNatClampNeg_lt (n : Int64) : n.toNatClampNeg < Nat.pow 2 63 := by
  have hlt := n.toInt_lt
  rw [Nat.pow_eq]
  show n.toInt.toNat < 2 ^ 63
  omega

/-- A whole number that is not negative is written like a natural number. -/
theorem toString_toInt {n : Int64} (hn : 0 ≤ n) : toString n.toInt = n.toNatClampNeg.repr := by
  have hint : n.toInt = (n.toNatClampNeg : Int) :=
    (Int.toNat_of_nonneg (Int64.le_iff_toInt_le.mp hn)).symm
  rw [hint]
  rfl

mutual

/-- All pieces of an expression without doubles can be read back. -/
theorem Node.allProper_pieces (depth : Nat) (e : Node) (h : e.isExpr = true)
    (hf : e.isFloatFree = true) : AllProper (e.pieces depth) := by
  cases e with
  | reference tok name =>
    rw [Node.isExpr] at h
    exact allProper_singleton h
  | integer tok n => exact allProper_singleton (isWhole_repr _)
  | string tok t => exact allProper_singleton rfl
  | boolean tok b => cases b <;> exact allProper_singleton rfl
  | unary tok op operand =>
    rw [Node.isExpr, Bool.and_eq_true, List.contains_iff_mem] at h
    rw [Node.isFloatFree] at hf
    have hoperand := Node.allProper_pieces depth operand h.2 hf
    rw [Node.pieces, allProper_cons]
    exact ⟨isProper_fixed_of_unary h.1, Node.allProper_asOperand hoperand⟩
  | binary tok op left right =>
    simp only [Node.isExpr, Bool.and_eq_true, List.contains_iff_mem] at h
    rw [Node.isFloatFree, Bool.and_eq_true] at hf
    have hleft := Node.allProper_pieces depth left h.1.2 hf.1
    have hright := Node.allProper_pieces depth right h.2 hf.2
    rw [Node.pieces, allProper_append, allProper_cons]
    exact ⟨Node.allProper_asOperand hleft, isProper_fixed_of_binary h.1.1,
      Node.allProper_asOperand hright⟩
  | call tok name args =>
    rw [Node.isExpr, Bool.and_eq_true] at h
    rw [Node.isFloatFree] at hf
    have hargs := Node.allProper_listed depth args [] allProper_nil h.2 hf
    rw [Node.pieces, allProper_cons, allProper_cons, allProper_append]
    exact ⟨h.1, rfl, hargs, allProper_singleton rfl⟩
  | select tok subject arms =>
    simp only [Node.isExpr, Bool.and_eq_true] at h
    rw [Node.isFloatFree, Bool.and_eq_true] at hf
    have hsubject := Node.allProper_pieces depth subject h.1.1 hf.1
    have harms := Arms.allProper_pieces (depth + 1) arms h.2 hf.2
    simp only [Node.pieces, allProper_append, allProper_cons]
    exact ⟨rfl, Node.allProper_asPart hsubject, rfl, rfl, harms⟩
  | float => simp [Node.isFloatFree] at hf
  | _ => simp [Node.isExpr] at h

/-- All pieces of arguments without doubles can be read back. -/
theorem Node.allProper_listed (depth : Nat) (es : List Node) (separator : List Piece)
    (hseparator : AllProper separator) (h : Node.areExprs es = true)
    (hf : Node.areFloatFree es = true) : AllProper (Node.listed depth separator es) := by
  cases es with
  | nil => exact allProper_nil
  | cons e rest =>
    rw [Node.areExprs, Bool.and_eq_true] at h
    rw [Node.areFloatFree, Bool.and_eq_true] at hf
    have he := Node.allProper_pieces depth e h.1 hf.1
    have hrest := Node.allProper_listed depth rest [.fixed .comma] (allProper_singleton rfl) h.2 hf.2
    rw [Node.listed, allProper_append, allProper_append]
    exact ⟨hseparator, Node.allProper_asPart he, hrest⟩

/-- All pieces of arms without doubles can be read back. -/
theorem Arms.allProper_pieces (depth : Nat) (arms : Arms) (h : arms.areWellFormed = true)
    (hf : arms.isFloatFree = true) : AllProper (arms.pieces depth) := by
  cases arms with
  | done => exact allProper_nil
  | pattern tok pattern result rest =>
    simp only [Arms.areWellFormed, Bool.and_eq_true] at h
    simp only [Arms.isFloatFree, Bool.and_eq_true] at hf
    have hpattern := Node.allProper_pieces depth pattern h.1.1 hf.1.1
    have hresult := Node.allProper_pieces depth result h.1.2 hf.1.2
    have hrest := Arms.allProper_pieces depth rest h.2 hf.2
    simp only [Arms.pieces, allProper_append, allProper_cons]
    exact ⟨rfl, rfl, Node.allProper_asPart hpattern, rfl, Node.allProper_asEnd hresult, hrest⟩
  | wildcard tok result rest =>
    rw [Arms.areWellFormed, Bool.and_eq_true] at h
    rw [Arms.isFloatFree, Bool.and_eq_true] at hf
    have hresult := Node.allProper_pieces depth result h.1 hf.1
    have hrest := Arms.allProper_pieces depth rest h.2 hf.2
    simp only [Arms.pieces, allProper_append, allProper_cons]
    exact ⟨rfl, rfl, rfl, rfl, Node.allProper_asEnd hresult, hrest⟩

end

namespace Node

/-- All pieces of a part of an expression without doubles can be read back. -/
theorem allProper_part {depth : Nat} {e : Node} (h : e.isExpr = true) (hf : e.isFloatFree = true) :
    AllProper (e.part depth) :=
  allProper_asPart (allProper_pieces depth e h hf)

/-- All pieces of an expression at the end of a line can be read back, if it has no doubles. -/
theorem allProper_ending {depth : Nat} {e : Node} (h : e.isExpr = true)
    (hf : e.isFloatFree = true) : AllProper (e.ending depth) :=
  allProper_asEnd (allProper_pieces depth e h hf)

/-- All pieces of parameters can be read back. -/
theorem allProper_paramPieces {separator : List Piece} (hseparator : AllProper separator)
    {params : List String} (h : params.all isName = true) :
    AllProper (paramPieces separator params) := by
  induction params generalizing separator with
  | nil => exact allProper_nil
  | cons name rest ih =>
    rw [List.all_cons, Bool.and_eq_true] at h
    rw [paramPieces, allProper_append, allProper_cons]
    exact ⟨hseparator, h.1, ih (allProper_singleton rfl) h.2⟩

end Node

mutual

/-- All pieces of a statement without doubles can be read back. -/
theorem Node.allProper_lines (depth : Nat) (n : Node) (h : n.isStatement = true)
    (hf : n.isFloatFree = true) : AllProper (n.lines depth) := by
  have hexpr : n.isExpr = true → AllProper (.indent depth :: n.ending depth) :=
    fun he => allProper_cons.mpr ⟨rfl, Node.allProper_ending he hf⟩
  cases n with
  | declaration tok name value =>
    rw [Node.isStatement, Bool.and_eq_true, Bool.or_eq_true] at h
    rw [Node.isFloatFree] at hf
    simp only [Node.lines, allProper_cons]
    refine ⟨rfl, rfl, h.1, ?_⟩
    split
    · exact allProper_singleton rfl
    · rename_i hnil
      exact allProper_cons.mpr ⟨rfl, Node.allProper_ending (h.2.resolve_left hnil) hf⟩
  | assignment tok name value =>
    rw [Node.isStatement, Bool.and_eq_true] at h
    rw [Node.isFloatFree] at hf
    simp only [Node.lines, allProper_cons]
    exact ⟨rfl, h.1, rfl, Node.allProper_ending h.2 hf⟩
  | ret tok value =>
    rw [Node.isStatement, Bool.or_eq_true] at h
    rw [Node.isFloatFree] at hf
    simp only [Node.lines, allProper_cons]
    refine ⟨rfl, rfl, ?_⟩
    split
    · exact allProper_singleton rfl
    · rename_i hnil
      exact Node.allProper_ending (h.resolve_left hnil) hf
  | definition tok name params bodyTok body =>
    simp only [Node.isStatement, Bool.and_eq_true] at h
    rw [Node.isFloatFree] at hf
    have hbody := Node.allProper_allLines (depth + 1) body h.2 hf
    simp only [Node.lines, allProper_cons, allProper_append]
    exact ⟨rfl, rfl, h.1.1.1, rfl, Node.allProper_paramPieces allProper_nil h.1.1.2, rfl, rfl, rfl,
      hbody⟩
  | conditional tok branches =>
    rw [Node.isStatement, Bool.and_eq_true] at h
    rw [Node.isFloatFree] at hf
    exact Branches.allProper_lines depth branches rfl h.2 hf
  | loop tok condition bodyTok body =>
    simp only [Node.isStatement, Bool.and_eq_true] at h
    rw [Node.isFloatFree, Bool.and_eq_true] at hf
    have hbody := Node.allProper_allLines (depth + 1) body h.2 hf.2
    simp only [Node.lines, allProper_cons, allProper_append]
    exact ⟨rfl, rfl, Node.allProper_part h.1.1 hf.1, rfl, rfl, hbody⟩
  | _ => exact hexpr h

/-- All pieces of statements without doubles can be read back. -/
theorem Node.allProper_allLines (depth : Nat) (ns : List Node) (h : Node.areStatements ns = true)
    (hf : Node.areFloatFree ns = true) : AllProper (Node.allLines depth ns) := by
  cases ns with
  | nil => exact allProper_nil
  | cons n rest =>
    rw [Node.areStatements, Bool.and_eq_true] at h
    rw [Node.areFloatFree, Bool.and_eq_true] at hf
    have hn := Node.allProper_lines depth n h.1 hf.1
    have hrest := Node.allProper_allLines depth rest h.2 hf.2
    exact allProper_append.mpr ⟨hn, hrest⟩

/-- All pieces of branches without doubles can be read back. -/
theorem Branches.allProper_lines (depth : Nat) (bs : Branches) {word : Kind}
    (hword : (fixed word).isProper = true) (h : bs.areWellFormed = true)
    (hf : bs.isFloatFree = true) : AllProper (bs.lines depth word) := by
  cases bs with
  | done => exact allProper_nil
  | otherwise bodyTok body =>
    rw [Branches.areWellFormed, Bool.and_eq_true] at h
    rw [Branches.isFloatFree] at hf
    have hbody := Node.allProper_allLines (depth + 1) body h.2 hf
    simp only [Branches.lines, allProper_cons]
    exact ⟨rfl, rfl, rfl, rfl, hbody⟩
  | guarded condition bodyTok body rest =>
    simp only [Branches.areWellFormed, Bool.and_eq_true] at h
    simp only [Branches.isFloatFree, Bool.and_eq_true] at hf
    have hbody := Node.allProper_allLines (depth + 1) body h.1.1.2 hf.1.2
    have hrest := Branches.allProper_lines depth rest (rfl : (fixed .elifWord).isProper = true) h.2 hf.2
    simp only [Branches.lines, allProper_cons, allProper_append]
    exact ⟨rfl, hword, Node.allProper_part h.1.1.1.1 hf.1.1, rfl, rfl, hbody, hrest⟩

end

end Offside
