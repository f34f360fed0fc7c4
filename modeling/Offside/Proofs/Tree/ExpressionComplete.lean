import Offside.Proofs.Tree.ExpressionSound
import Offside.Proofs.Tree.Rendering
import Offside.Proofs.Tree.Shows

/-!
# Rendered expressions are read back

What the grammar reads off the pieces of a well-formed expression without points in its numbers is
that expression again, up to places, and what is left are the pieces after it. As an operand, as a
part of a line and as the end of a line an expression must not be followed by a token that would
continue it: an operator, the parenthesis of a call, or a bar in the column of its arms.
-/

set_option autoImplicit false

namespace Offside

namespace Grammar

open Reading Piece

variable {r : Reading} {rest : List Piece}

/-- What follows does not continue an expression. -/
def Closes (rest : List Piece) : Prop :=
  nextKind rest ∉ binaryOperators ∧ nextKind rest ≠ .leftParen

/-- The expression was read, and the pieces are to come on the same line. -/
def Read (e : Node) (rest : List Piece) (n : Node) (r : Reading) : Prop :=
  n.bare = e.bare ∧ r.Shows rest ∧ r.afterBreak = false

/-- The expression was read up to the end of its line. -/
def ReadLine (e : Node) (rest : List Piece) (n : Node) (r : Reading) : Prop :=
  n.bare = e.bare ∧ r.Ended rest

/-! ## Levels of operators -/

/-- What was read is not continued by an operator of the given kinds. -/
def Stops (kinds : List Kind) (r : Reading) : Prop :=
  ∃ ps, r.Shows ps ∧ (r.afterBreak = true ∨ nextKind ps ∉ kinds)

/-- Operations that stop in front of some kinds stop in front of fewer. -/
theorem Stops.mono {kinds kinds' : List Kind} (h : Stops kinds r) (hsub : ∀ k ∈ kinds', k ∈ kinds) :
    Stops kinds' r := by
  obtain ⟨ps, hps, hstop⟩ := h
  exact ⟨ps, hps, hstop.imp id fun hnot hmem => hnot (hsub _ hmem)⟩

/-- Where no operator of the level follows, the left operand is all there is. -/
theorem yields_operations {level : List Kind} {tighter : List (List Kind)} {left : Node}
    (h : Stops level r) (fuel : Nat) :
    Yields (operations fuel level tighter left) r fun n r' => n = left ∧ r' = r := by
  cases fuel with
  | zero => exact rfl
  | succ fuel =>
    obtain ⟨ps, hps, hstop⟩ := h
    rw [operations]
    exact yields_unless_continuesWith hps hstop (ensures_pure ⟨rfl, rfl⟩)

/-- What is read as an operand with its signs is read as an expression of any levels, unless an
operator of them follows. -/
theorem yields_expression {Q : Node → Reading → Prop} (h : ∀ fuel, Yields (unary fuel) r Q)
    (levels : List (List Kind)) (hstop : ∀ n r', Q n r' → Stops levels.flatten r') (fuel : Nat) :
    Yields (expression fuel levels) r Q := by
  induction levels generalizing fuel with
  | nil =>
    cases fuel with
    | zero => exact rfl
    | succ fuel =>
      rw [expression]
      exact h fuel
  | cons level tighter ih =>
    cases fuel with
    | zero => exact rfl
    | succ fuel =>
      have htighter : ∀ n r', Q n r' → Stops tighter.flatten r' := fun n r' hn =>
        (hstop n r' hn).mono fun k hk => List.mem_append_right level hk
      rw [expression]
      refine ensures_bind (ih htighter fuel) ?_
      intro left r' hleft
      have hlevel : Stops level r' :=
        (hstop left r' hleft).mono fun k hk => List.mem_append_left _ hk
      refine ensures_mono (yields_operations hlevel fuel) ?_
      rintro n r'' ⟨rfl, rfl⟩
      exact hleft

/-- An operation of two operands is read at the level of its operator. -/
theorem yields_binary {op : Kind} {left right : Node} {ps : List Piece}
    (hleft : ∀ fuel, Yields (unary fuel) r (Read left (.fixed op :: ps)))
    (hright : ∀ fuel r', r'.Shows ps → Yields (unary fuel) r' (Read right rest))
    (levels : List (List Kind)) (hlevels : levels.flatten.Nodup) (hop : op ∈ levels.flatten)
    (hnewline : op ≠ .newline) (tok : Token) (hrest : nextKind rest ∉ levels.flatten) (fuel : Nat) :
    Yields (expression fuel levels) r (Read (.binary tok op left right) rest) := by
  induction levels generalizing fuel with
  | nil => exact absurd hop List.not_mem_nil
  | cons level tighter ih =>
    cases fuel with
    | zero => exact rfl
    | succ fuel =>
      rw [List.flatten_cons] at hlevels hop hrest
      rw [List.nodup_append] at hlevels
      rw [List.mem_append, not_or] at hrest
      have hstops : ∀ e n r', Read e rest n r' → Stops level r' ∧ Stops tighter.flatten r' :=
        fun e n r' hread =>
          ⟨⟨rest, hread.2.1, Or.inr hrest.1⟩, ⟨rest, hread.2.1, Or.inr hrest.2⟩⟩
      rw [expression]
      rcases List.mem_append.mp hop with hop | hop
      · -- the operator is of this level, so the tighter levels read the operands
        have hother : op ∉ tighter.flatten := fun hmem => hlevels.2.2 op hop op hmem rfl
        refine ensures_bind (yields_expression hleft tighter ?_ fuel) ?_
        · rintro n r' ⟨-, hshows, -⟩
          exact ⟨_, hshows, Or.inr hother⟩
        · rintro l r₁ ⟨hl, hr₁, hline⟩
          cases fuel with
          | zero => exact rfl
          | succ fuel =>
            rw [operations]
            refine yields_if_continuesWith hr₁ hline hop ?_
            refine ensures_bind (yields_next hr₁ hnewline) ?_
            rintro sign r₂ ⟨hsign, -, hr₂, -⟩
            refine ensures_bind (yields_expression (fun f => hright f r₂ hr₂) tighter
              (fun n r' hread => (hstops right n r' hread).2) fuel) ?_
            intro n r₃ hread
            refine ensures_mono (yields_operations (hstops right n r₃ hread).1 fuel) ?_
            rintro m r₄ ⟨rfl, rfl⟩
            refine ⟨?_, hread.2⟩
            rw [Node.bare, Node.bare, hl, hread.1, hsign]
      · -- the operator is of a tighter level, which reads the whole operation
        refine ensures_bind (ih hlevels.2.1 hop hrest.2 fuel) ?_
        intro n r' hread
        refine ensures_mono (yields_operations (hstops _ n r' hread).1 fuel) ?_
        rintro m r'' ⟨rfl, rfl⟩
        exact hread

/-- An operand without signs. -/
theorem yields_unary_atom {Q : Node → Reading → Prop} {ps : List Piece} (hps : r.Shows ps)
    (hatom : nextKind ps ∈ atomKinds) (h : ∀ fuel, Yields (atom fuel) r Q) (fuel : Nat) :
    Yields (unary fuel) r Q := by
  cases fuel with
  | zero => exact rfl
  | succ fuel =>
    rw [unary]
    have hdisjoint : ∀ k ∈ atomKinds, k ∉ unaryOperators := by decide
    exact yields_unless_peekIs hps (hdisjoint _ hatom) (h fuel)

/-- A sign in front of an operand that can be read is read with it. -/
theorem yields_unary_sign {op : Kind} {operand : Node} {ps : List Piece}
    (hop : op ∈ unaryOperators) (hr : r.Shows (.fixed op :: ps))
    (h : ∀ fuel r', r'.Shows ps → Yields (unary fuel) r' (Read operand rest)) (tok : Token)
    (fuel : Nat) : Yields (unary fuel) r (Read (.unary tok op operand) rest) := by
  have hnewline : op ≠ .newline := by
    rintro rfl
    exact absurd hop (by decide)
  cases fuel with
  | zero => exact rfl
  | succ fuel =>
    rw [unary]
    refine yields_if_peekIs hr hop ?_
    refine ensures_bind (yields_next hr hnewline) ?_
    rintro sign r₁ ⟨hsign, -, hr₁, -⟩
    refine ensures_bind (h fuel r₁ hr₁) ?_
    rintro n r₂ ⟨hn, hr₂⟩
    refine ensures_pure ⟨?_, hr₂⟩
    rw [Node.bare, Node.bare, hn, hsign]

/-! ## Positions of an expression -/

/-- The expression is read back in every position: as an operand, as a part of a line, and as the
end of a line. -/
structure Readable (e : Node) : Prop where
  operand : ∀ (fuel depth : Nat) (rest : List Piece) (r : Reading),
    r.Shows (e.operand depth ++ rest) → nextKind rest ≠ .leftParen →
    Yields (unary fuel) r (Read e rest)
  part : ∀ (fuel depth : Nat) (rest : List Piece) (r : Reading),
    r.Shows (e.part depth ++ rest) → Closes rest →
    Yields (expression fuel levels) r (Read e rest)
  ending : ∀ (fuel depth : Nat) (rest : List Piece) (r : Reading),
    r.Shows (e.ending depth ++ rest) → Within depth rest →
    Yields (expression fuel levels) r (ReadLine e rest)

/-- Behind an expression that is read, operations stop. -/
theorem Read.stops {e n : Node} (h : Read e rest n r) (hrest : Closes rest) :
    Stops levels.flatten r :=
  ⟨rest, h.2.1, Or.inr hrest.1⟩

/-- A line break closes an expression. -/
theorem closes_newline (rest : List Piece) : Closes (.newline :: rest) := by
  unfold Closes
  rw [nextKind]
  decide

/-- A token that is neither an operator nor a parenthesis that opens closes an expression. -/
theorem closes_fixed {k : Kind} (hk : k ∉ binaryOperators ∧ k ≠ .leftParen) (rest : List Piece) :
    Closes (.fixed k :: rest) := hk

/-- An expression in front of a line break is the last of its line. -/
theorem Read.readLine {e n : Node} (h : Read e (.newline :: rest) n r) : ReadLine e rest n r :=
  ⟨h.1, Or.inr ⟨h.2.2, h.2.1⟩⟩

/-- What stands in parentheses is read back as an operand. -/
theorem yields_parens {e : Node} {ps : List Piece} (hr : r.Shows (.fixed .leftParen :: ps))
    (h : ∀ fuel r', r'.Shows ps → Yields (expression fuel levels) r' fun n r'' =>
      n.bare = e.bare ∧ r''.Shows (.fixed .rightParen :: rest)) (fuel : Nat) :
    Yields (unary fuel) r (Read e rest) := by
  refine yields_unary_atom hr (show Kind.leftParen ∈ atomKinds by decide) (fun fuel => ?_) fuel
  cases fuel with
  | zero => exact rfl
  | succ fuel =>
    rw [atom]
    refine ensures_bind (yields_expect hr (by decide) (by decide)) ?_
    rintro paren r₁ ⟨hparen, -, hr₁, -⟩
    simp only [hparen]
    refine ensures_bind (h fuel r₁ hr₁) ?_
    rintro n r₂ ⟨hn, hr₂⟩
    refine ensures_bind (yields_expect hr₂ (by decide) (by decide)) ?_
    rintro close r₃ ⟨-, -, hr₃, hline⟩
    exact ensures_pure ⟨hn, hr₃, hline⟩

/-- For an expression that is no selection, an operand and what stands on a line are enough. -/
theorem readable_of_whole {e : Node} (hselect : e.isSelect = false)
    (hoperand : ∀ (fuel depth : Nat) (rest : List Piece) (r : Reading),
      r.Shows (e.operand depth ++ rest) → nextKind rest ≠ .leftParen →
      Yields (unary fuel) r (Read e rest))
    (hwhole : ∀ (fuel depth : Nat) (rest : List Piece) (r : Reading),
      r.Shows (e.pieces depth ++ rest) → Closes rest →
      Yields (expression fuel levels) r (Read e rest)) : Readable e := by
  refine ⟨hoperand, ?_, ?_⟩
  · intro fuel depth rest r hr
    rw [Node.part, Node.asPart, hselect, if_neg Bool.false_ne_true] at hr
    exact hwhole fuel depth rest r hr
  · intro fuel depth rest r hr _
    rw [Node.ending, Node.asEnd, hselect, if_neg Bool.false_ne_true, List.append_assoc] at hr
    refine ensures_mono (hwhole fuel depth _ r hr (closes_newline rest)) ?_
    exact fun n r' hread => hread.readLine

/-- An atom that can be read is readable in all positions. -/
theorem readable_of_atom {e : Node} (hcompound : e.isCompound = false)
    (hkind : ∀ depth rest, nextKind (e.pieces depth ++ rest) ∈ atomKinds)
    (h : ∀ (fuel depth : Nat) (rest : List Piece) (r : Reading), r.Shows (e.pieces depth ++ rest) →
      nextKind rest ≠ .leftParen → Yields (atom fuel) r (Read e rest)) : Readable e := by
  have hselect : e.isSelect = false := by
    cases e <;> first | rfl | exact absurd hcompound (by simp [Node.isCompound])
  have hunary : ∀ (fuel depth : Nat) (rest : List Piece) (r : Reading),
      r.Shows (e.pieces depth ++ rest) → nextKind rest ≠ .leftParen →
      Yields (unary fuel) r (Read e rest) := fun fuel depth rest r hr hrest =>
    yields_unary_atom hr (hkind depth rest) (fun fuel => h fuel depth rest r hr hrest) fuel
  refine readable_of_whole hselect ?_ ?_
  · intro fuel depth rest r hr
    rw [Node.operand, Node.asOperand, hcompound, if_neg Bool.false_ne_true] at hr
    exact hunary fuel depth rest r hr
  · intro fuel depth rest r hr hrest
    exact yields_expression (fun fuel => hunary fuel depth rest r hr hrest.2) levels
      (fun n r' hread => hread.stops hrest) fuel

/-- An operation that can be read is readable, in parentheses where it has to be. -/
theorem readable_of_operation {e : Node} (hcompound : e.isCompound = true)
    (hselect : e.isSelect = false)
    (h : ∀ (fuel depth : Nat) (rest : List Piece) (r : Reading), r.Shows (e.pieces depth ++ rest) →
      Closes rest → Yields (expression fuel levels) r (Read e rest)) : Readable e := by
  refine readable_of_whole hselect ?_ h
  intro fuel depth rest r hr _
  rw [Node.operand, Node.asOperand, hcompound, if_pos rfl, Node.inParens, hselect,
    if_neg Bool.false_ne_true, List.nil_append, List.cons_append, List.append_assoc] at hr
  refine yields_parens hr (fun fuel r' hr' => ?_) fuel
  refine ensures_mono (h fuel depth _ r' hr' (closes_fixed (by decide) rest)) ?_
  rintro n r'' ⟨hn, hr'', -⟩
  exact ⟨hn, hr''⟩

/-- A selection that can be read at the end of a line is readable, in parentheses elsewhere. -/
theorem readable_of_select {e : Node} (hcompound : e.isCompound = true) (hselect : e.isSelect = true)
    (hkind : ∀ depth rest, nextKind (e.pieces depth ++ rest) ∈ atomKinds)
    (h : ∀ (fuel depth : Nat) (rest : List Piece) (r : Reading), r.Shows (e.pieces depth ++ rest) →
      Within depth rest → Yields (atom fuel) r fun n r' =>
        n.bare = e.bare ∧ r'.ShowsLine rest ∧ r'.afterBreak = true) : Readable e := by
  have hwhole : ∀ (fuel depth : Nat) (rest : List Piece) (r : Reading),
      r.Shows (e.pieces depth ++ rest) → Within depth rest →
      Yields (expression fuel levels) r fun n r' =>
        n.bare = e.bare ∧ r'.ShowsLine rest ∧ r'.afterBreak = true := by
    intro fuel depth rest r hr hrest
    refine yields_expression (fun fuel => ?_) levels ?_ fuel
    · exact yields_unary_atom hr (hkind depth rest) (fun fuel => h fuel depth rest r hr hrest) fuel
    · rintro n r' ⟨-, hline, hbreak⟩
      exact ⟨rest, hline.shows, Or.inl hbreak⟩
  -- the closing parenthesis has a line of its own, to the left of the bars, which ends the arms
  have hparens : ∀ (fuel depth : Nat) (rest : List Piece) (r : Reading),
      r.Shows (e.inParens depth (e.pieces depth) ++ rest) → Yields (unary fuel) r (Read e rest) := by
    intro fuel depth rest r hr
    rw [Node.inParens, hselect, if_pos rfl, List.cons_append, List.append_assoc] at hr
    refine yields_parens hr (fun fuel r' hr' => ?_) fuel
    refine ensures_mono (hwhole fuel depth _ r' hr' (.line (Nat.le_refl depth) (by decide))) ?_
    rintro n r'' ⟨hn, hline, -⟩
    exact ⟨hn, hline.shows.of_indent⟩
  refine ⟨?_, ?_, ?_⟩
  · intro fuel depth rest r hr _
    rw [Node.operand, Node.asOperand, hcompound, if_pos rfl] at hr
    exact hparens fuel depth rest r hr
  · intro fuel depth rest r hr hrest
    rw [Node.part, Node.asPart, hselect, if_pos rfl] at hr
    exact yields_expression (fun fuel => hparens fuel depth rest r hr) levels
      (fun n r' hread => hread.stops hrest) fuel
  · intro fuel depth rest r hr hrest
    rw [Node.ending, Node.asEnd, hselect, if_pos rfl] at hr
    refine ensures_mono (hwhole fuel depth rest r hr hrest) ?_
    rintro n r' ⟨hn, hline, hbreak⟩
    exact ⟨hn, Or.inl ⟨hbreak, hline⟩⟩

/-! ## Operations, literals and names -/

/-- An operator in front of a readable operand is readable. -/
theorem readable_unary {operand : Node} (h : Readable operand) {op : Kind}
    (hop : op ∈ unaryOperators) (tok : Token) : Readable (.unary tok op operand) := by
  refine readable_of_operation rfl rfl ?_
  intro fuel depth rest r hr hrest
  refine yields_expression (fun fuel => ?_) levels (fun n r' hread => hread.stops hrest) fuel
  rw [Node.pieces, List.cons_append] at hr
  exact yields_unary_sign hop hr (fun fuel r' hr' => h.operand fuel depth rest r' hr' hrest.2) tok fuel

/-- An operator between readable operands is readable. -/
theorem readable_binary {left right : Node} (hleft : Readable left) (hright : Readable right)
    {op : Kind} (hop : op ∈ binaryOperators) (tok : Token) :
    Readable (.binary tok op left right) := by
  have hop' : op ≠ .leftParen ∧ op ≠ .newline := by
    constructor <;> rintro rfl <;> exact absurd hop (by decide)
  refine readable_of_operation rfl rfl ?_
  intro fuel depth rest r hr hrest
  rw [Node.pieces, List.append_assoc, List.cons_append] at hr
  exact yields_binary (fun fuel => hleft.operand fuel depth _ r hr hop'.1)
    (fun fuel r' hr' => hright.operand fuel depth rest r' hr' hrest.2) levels (by decide) hop hop'.2
    tok hrest.1 fuel

/-- A name is readable. -/
theorem readable_reference (tok : Token) (name : String) : Readable (.reference tok name) := by
  refine readable_of_atom rfl (fun _ _ => (by decide : Kind.identifier ∈ atomKinds)) ?_
  intro fuel depth rest r hr hrest
  cases fuel with
  | zero => exact rfl
  | succ fuel =>
    rw [atom]
    refine ensures_bind (yields_expect hr (by decide) (by decide)) ?_
    rintro word r₁ ⟨hword, hname, hr₁, hline⟩
    simp only [hword]
    refine yields_unless_peekIs hr₁ (fun hparen => hrest (List.mem_singleton.mp hparen)) ?_
    refine ensures_pure ⟨?_, hr₁, hline⟩
    rw [Node.bare, Node.bare, hname]

/-- A boolean is readable. -/
theorem readable_boolean (tok : Token) (b : Bool) : Readable (.boolean tok b) := by
  refine readable_of_atom rfl (fun _ _ => (by decide : Kind.boolean ∈ atomKinds)) ?_
  intro fuel depth rest r hr hrest
  cases fuel with
  | zero => exact rfl
  | succ fuel =>
    rw [atom]
    refine ensures_bind (yields_expect hr (by decide) (by decide)) ?_
    rintro word r₁ ⟨hword, hvalue, hr₁, hline⟩
    simp only [hword]
    refine ensures_pure ⟨?_, hr₁, hline⟩
    rw [Node.bare, Node.bare, hvalue]
    cases b <;> rfl

/-- A string of whole characters is readable. -/
theorem readable_string (tok : Token) {t : Text} (ht : t.isValid = true) :
    Readable (.string tok t) := by
  obtain ⟨s, hs⟩ := Option.isSome_iff_exists.mp ht
  refine readable_of_atom rfl (fun _ _ => (by decide : Kind.string ∈ atomKinds)) ?_
  intro fuel depth rest r hr hrest
  cases fuel with
  | zero => exact rfl
  | succ fuel =>
    rw [atom]
    refine ensures_bind (yields_expect hr (by decide) (by decide)) ?_
    rintro word r₁ ⟨hword, hvalue, hr₁, hline⟩
    simp only [hword]
    refine ensures_pure ⟨?_, hr₁, hline⟩
    rw [Node.bare, Node.bare, hvalue, hs, Option.getD_some, Text.ofString_of_toString? hs]

/-- A whole number that is not negative is readable. -/
theorem readable_integer (tok : Token) {n : Int64} (hn : 0 ≤ n) : Readable (.integer tok n) := by
  have hsmall := toNatClampNeg_lt n
  have hback : Int64.ofNat n.toNatClampNeg = n := Int64.ofNat_toNatClampNeg n hn
  refine readable_of_atom rfl (fun _ _ => (by decide : Kind.integer ∈ atomKinds)) ?_
  intro fuel depth rest r hr hrest
  cases fuel with
  | zero => exact rfl
  | succ fuel =>
    rw [atom]
    refine ensures_bind (yields_expect hr (by decide) (by decide)) ?_
    rintro word r₁ ⟨hword, hvalue, hr₁, hline⟩
    simp only [hword]
    unfold integerLiteral
    simp only [hvalue, ofDigits_repr, if_pos hsmall, hback]
    refine ensures_pure ⟨?_, hr₁, hline⟩
    rw [Node.bare, Node.bare]

/-! ## First tokens -/

/-- The pieces start with a word of one of the kinds. -/
def Starts (kinds : List Kind) (ps : List Piece) : Prop :=
  ∃ k value rest, ps = .word k value :: rest ∧ k ∈ kinds

/-- The first token of what starts with some kinds is of one of them. -/
theorem Starts.nextKind_mem {kinds : List Kind} {ps : List Piece} (h : Starts kinds ps)
    (rest : List Piece) : nextKind (ps ++ rest) ∈ kinds := by
  obtain ⟨k, value, more, rfl, hk⟩ := h
  exact hk

/-- An operand starts like an atom. -/
theorem starts_operand {e : Node} (he : e.isExpr = true) (hf : e.isFloatFree = true)
    (depth : Nat) : Starts atomKinds (e.operand depth) := by
  cases e with
  | reference | integer | string | boolean | call | unary | binary | select =>
    exact ⟨_, _, _, rfl, by decide⟩
  | float => simp [Node.isFloatFree] at hf
  | _ => simp [Node.isExpr] at he

/-- The kinds of tokens that an expression can start with. -/
def expressionKinds : List Kind := atomKinds ++ unaryOperators

/-- An expression starts like an atom or with a sign. -/
theorem starts_pieces {e : Node} (he : e.isExpr = true) (hf : e.isFloatFree = true)
    (depth : Nat) : Starts expressionKinds (e.pieces depth) := by
  cases e with
  | reference | integer | string | boolean | call | select => exact ⟨_, _, _, rfl, by decide⟩
  | unary tok op operand =>
    rw [Node.isExpr, Bool.and_eq_true, List.contains_iff_mem] at he
    exact ⟨op, _, _, rfl, List.mem_append_right _ he.1⟩
  | binary tok op left right =>
    simp only [Node.isExpr, Bool.and_eq_true] at he
    rw [Node.isFloatFree, Bool.and_eq_true] at hf
    obtain ⟨k, value, ps, hps, hk⟩ := starts_operand he.1.2 hf.1 depth
    refine ⟨k, value, ps ++ .fixed op :: right.operand depth, ?_, List.mem_append_left _ hk⟩
    show left.operand depth ++ .fixed op :: right.operand depth = _
    rw [hps, List.cons_append]
  | float => simp [Node.isFloatFree] at hf
  | _ => simp [Node.isExpr] at he

/-- An expression inside another one starts like an expression. -/
theorem starts_part {e : Node} (he : e.isExpr = true) (hf : e.isFloatFree = true)
    (depth : Nat) : Starts expressionKinds (e.part depth) := by
  unfold Node.part Node.asPart
  split
  · exact ⟨_, _, _, rfl, by decide⟩
  · exact starts_pieces he hf depth

/-- An expression at the end of a line starts like an expression. -/
theorem starts_ending {e : Node} (he : e.isExpr = true) (hf : e.isFloatFree = true)
    (depth : Nat) : Starts expressionKinds (e.ending depth) := by
  obtain ⟨k, value, ps, hps, hk⟩ := starts_pieces he hf depth
  unfold Node.ending Node.asEnd
  split
  · exact ⟨k, value, ps, hps, hk⟩
  · exact ⟨k, value, _, by rw [hps, List.cons_append], hk⟩

/-! ## Calls -/

/-- Further arguments start with a comma, unless there are none. -/
theorem nextKind_listed (depth : Nat) (es : List Node) (rest : List Piece) :
    nextKind (Node.listed depth [.fixed .comma] es ++ .fixed .rightParen :: rest) =
      if es.isEmpty then .rightParen else .comma := by
  cases es <;> rfl

/-- Further arguments close the one in front of them. -/
theorem closes_listed (depth : Nat) (es : List Node) (rest : List Piece) :
    Closes (Node.listed depth [.fixed .comma] es ++ .fixed .rightParen :: rest) := by
  unfold Closes
  rw [nextKind_listed]
  split <;> decide

/-- Further readable arguments are read up to the closing parenthesis. -/
theorem yields_moreArguments {es : List Node} (hes : ∀ e ∈ es, Readable e) (depth : Nat)
    (hr : r.Shows (Node.listed depth [.fixed .comma] es ++ .fixed .rightParen :: rest))
    (fuel : Nat) :
    Yields (moreArguments fuel) r fun ns r' =>
      Node.allBare ns = Node.allBare es ∧ r'.Shows (.fixed .rightParen :: rest) := by
  induction es generalizing r fuel with
  | nil =>
    cases fuel with
    | zero => exact rfl
    | succ fuel =>
      rw [moreArguments]
      refine yields_unless_peekIs hr ?_ (ensures_pure ⟨rfl, hr⟩)
      rw [nextKind_listed]
      decide
  | cons e es ih =>
    obtain ⟨he, hes⟩ := List.forall_mem_cons.mp hes
    cases fuel with
    | zero => exact rfl
    | succ fuel =>
      rw [moreArguments]
      refine yields_if_peekIs hr (List.mem_singleton_self _) ?_
      rw [Node.listed, List.append_assoc, List.append_assoc] at hr
      refine ensures_bind (yields_next hr (by decide)) ?_
      rintro comma r₁ ⟨-, -, hr₁, -⟩
      refine ensures_bind (he.part fuel depth _ r₁ hr₁ (closes_listed depth es rest)) ?_
      rintro n r₂ ⟨hn, hr₂, -⟩
      refine ensures_bind (ih hes hr₂ fuel) ?_
      rintro ns r₃ ⟨hns, hr₃⟩
      refine ensures_pure ⟨?_, hr₃⟩
      rw [Node.allBare, Node.allBare, hn, hns]

/-- Readable arguments are read with the closing parenthesis. -/
theorem yields_arguments {es : List Node} (hes : ∀ e ∈ es, Readable e)
    (hexprs : Node.areExprs es = true) (hf : Node.areFloatFree es = true) (depth : Nat)
    (hr : r.Shows (Node.listed depth [] es ++ .fixed .rightParen :: rest)) (fuel : Nat) :
    Yields (arguments fuel) r fun ns r' =>
      Node.allBare ns = Node.allBare es ∧ r'.Shows rest ∧ r'.afterBreak = false := by
  have hend : ∀ (ns : List Node) (r' : Reading), Node.allBare ns = Node.allBare es →
      r'.Shows (.fixed .rightParen :: rest) →
      Yields (do
        let _ ← expect [.rightParen]
        pure ns) r' fun ns r' =>
          Node.allBare ns = Node.allBare es ∧ r'.Shows rest ∧ r'.afterBreak = false := by
    intro ns r' hns hr'
    refine ensures_bind (yields_expect hr' (by decide) (by decide)) ?_
    rintro close r'' ⟨-, -, hr''⟩
    exact ensures_pure ⟨hns, hr''⟩
  cases fuel with
  | zero => exact rfl
  | succ fuel =>
    rw [arguments]
    refine ensures_bind (yields_peekIs hr _) ?_
    rintro b r' ⟨rfl, hb⟩
    dsimp only
    cases es with
    | nil =>
      rw [if_pos (hb.mpr (List.mem_singleton_self _))]
      exact hend [] r' rfl hr
    | cons e es =>
      obtain ⟨he, hes⟩ := List.forall_mem_cons.mp hes
      rw [Node.areExprs, Bool.and_eq_true] at hexprs
      rw [Node.areFloatFree, Bool.and_eq_true] at hf
      rw [Node.listed, List.nil_append, List.append_assoc] at hr hb
      have hstart := (starts_part hexprs.1 hf.1 depth).nextKind_mem
        (Node.listed depth [.fixed .comma] es ++ .fixed .rightParen :: rest)
      -- no expression starts with a closing parenthesis
      have hnot : ¬ b = true := by
        rw [hb, List.mem_singleton]
        intro hparen
        rw [Node.part, hparen] at hstart
        exact absurd hstart (by decide)
      rw [if_neg hnot]
      refine ensures_bind (he.part fuel depth _ r' hr (closes_listed depth es rest)) ?_
      rintro n r₁ ⟨hn, hr₁, -⟩
      refine ensures_bind (yields_moreArguments hes depth hr₁ fuel) ?_
      rintro ns r₂ ⟨hns, hr₂⟩
      refine hend (n :: ns) r₂ ?_ hr₂
      rw [Node.allBare, Node.allBare, hn, hns]

/-- A call with readable arguments is readable. -/
theorem readable_call {args : List Node} (hargs : ∀ e ∈ args, Readable e)
    (hexprs : Node.areExprs args = true) (hf : Node.areFloatFree args = true) (tok : Token)
    (name : String) : Readable (.call tok name args) := by
  refine readable_of_atom rfl (fun _ _ => (by decide : Kind.identifier ∈ atomKinds)) ?_
  intro fuel depth rest r hr _
  cases fuel with
  | zero => exact rfl
  | succ fuel =>
    simp only [Node.pieces, List.cons_append, List.append_assoc] at hr
    rw [atom]
    refine ensures_bind (yields_expect hr (by decide) (by decide)) ?_
    rintro word r₁ ⟨hword, hname, hr₁, -⟩
    simp only [hword]
    refine yields_if_peekIs hr₁ (List.mem_singleton_self _) ?_
    refine ensures_bind (yields_next hr₁ (by decide)) ?_
    rintro paren r₃ ⟨-, -, hr₃, -⟩
    refine ensures_bind (yields_arguments hargs hexprs hf depth hr₃ fuel) ?_
    rintro ns r₄ ⟨hns, hr₄⟩
    refine ensures_pure ⟨?_, hr₄⟩
    rw [Node.bare, Node.bare, hname, hns]

/-! ## Selections -/

/-- The arms are read back one level deeper than the line of their selection. -/
def ReadableArms (as : Arms) : Prop :=
  ∀ (fuel depth : Nat) (rest : List Piece) (r : Reading),
    r.ShowsLine (as.pieces (depth + 1) ++ rest) → r.afterBreak = true → Within depth rest →
    Yields (arms fuel (2 * (depth + 1 : Nat))) r fun bs r' =>
      bs.bare = as.bare ∧ r'.ShowsLine rest ∧ r'.afterBreak = true

/-- Arms are within the block that they stand in. -/
theorem within_arms (as : Arms) {depth : Nat} (hrest : Within depth rest) :
    Within (depth + 1) (as.pieces (depth + 1) ++ rest) := by
  cases as with
  | done => exact hrest.mono (Nat.le_succ depth)
  | pattern | wildcard => exact .line (Nat.le_refl _) (by decide)

/-- That there are no further arms can be read. -/
theorem readableArms_done : ReadableArms .done := by
  intro fuel depth rest r hr hbreak hrest
  cases fuel with
  | zero => exact rfl
  | succ fuel =>
    rw [arms]
    refine ensures_bind (yields_skipBreaks hr.shows hrest.nextKind_ne) ?_
    rintro - r₁ rfl
    refine ensures_bind (yields_peek_within hr hrest) ?_
    rintro tok r₂ ⟨rfl, -, hplace⟩
    have hnot : ¬ (tok.kind = .bar ∧ tok.pos.column = 2 * ((depth + 1 : Nat) : Int)) := by
      rintro ⟨hbar, hcolumn⟩
      rcases hplace with hend | ⟨d, hd, hd'⟩
      · rw [hend] at hbar
        exact absurd hbar (by decide)
      · omega
    rw [if_neg hnot]
    exact ensures_pure ⟨rfl, hr, hbreak⟩

/-- The bar in front of an arm. -/
theorem yields_bar {β : Type} {Q : β → Reading → Prop} {f : Token → Grammar β} {g : Grammar β}
    {depth : Nat} {ps : List Piece} (hr : r.ShowsLine (.indent depth :: .fixed .bar :: ps))
    (h : ∀ tok r', r'.Shows ps → Yields (f tok) r' Q) :
    Yields (do
      skipBreaks
      let tok ← peek
      if tok.kind = .bar ∧ tok.pos.column = 2 * (depth : Int) then
        let _ ← next
        f tok
      else g) r Q := by
  refine ensures_bind (yields_skipBreaks hr.shows (by simp [Piece.fixed, nextKind])) ?_
  rintro - r₁ rfl
  refine ensures_bind (yields_peek_line hr) ?_
  rintro tok r₂ ⟨rfl, hbar, hcolumn⟩
  rw [if_pos ⟨hbar, hcolumn⟩]
  refine ensures_bind (yields_next hr.shows.of_indent (by decide)) ?_
  rintro bar r₃ ⟨-, -, hr₃, -⟩
  exact h tok r₃ hr₃

/-- The result of an arm and the arms after it. -/
theorem yields_result {β : Type} {Q : β → Reading → Prop} {f : Node → Arms → β} {result : Node}
    {as : Arms} (hresult : Readable result) (has : ReadableArms as) {depth : Nat}
    (hrest : Within depth rest)
    (hr : r.Shows (.fixed .arrow :: (result.ending (depth + 1) ++ (as.pieces (depth + 1) ++ rest))))
    (fuel : Nat)
    (h : ∀ n bs r', n.bare = result.bare → bs.bare = as.bare → r'.ShowsLine rest →
      r'.afterBreak = true → Q (f n bs) r') :
    Yields (do
      let _ ← expect [.arrow]
      let n ← expression fuel levels
      endLine
      let bs ← arms fuel (2 * (depth + 1 : Nat))
      pure (f n bs)) r Q := by
  refine ensures_bind (yields_expect hr (by decide) (by decide)) ?_
  rintro arrow r₁ ⟨-, -, hr₁, -⟩
  refine ensures_bind (hresult.ending fuel (depth + 1) _ r₁ hr₁ (within_arms as hrest)) ?_
  rintro n r₂ ⟨hn, hended⟩
  refine ensures_bind (yields_endLine hended) ?_
  rintro - r₃ ⟨hr₃, hbreak⟩
  refine ensures_bind (has fuel depth rest r₃ hr₃ hbreak hrest) ?_
  rintro bs r₄ ⟨hbs, hr₄, hbreak₄⟩
  exact ensures_pure (h n bs r₄ hn hbs hr₄ hbreak₄)

/-- A wildcard with a readable result in front of readable arms is readable. -/
theorem readableArms_wildcard {result : Node} {as : Arms} (hresult : Readable result)
    (has : ReadableArms as) (tok : Token) : ReadableArms (.wildcard tok result as) := by
  intro fuel depth rest r hr _ hrest
  cases fuel with
  | zero => exact rfl
  | succ fuel =>
    simp only [Arms.pieces, List.cons_append, List.append_assoc] at hr
    rw [arms]
    refine yields_bar hr fun bar r₁ hr₁ => ?_
    refine yields_if_peekIs hr₁ (List.mem_singleton_self _) ?_
    refine ensures_bind (yields_next hr₁ (by decide)) ?_
    rintro times r₃ ⟨-, -, hr₃, -⟩
    refine yields_result hresult has hrest hr₃ fuel ?_
    intro n bs r₄ hn hbs hr₄ hbreak
    refine ⟨?_, hr₄, hbreak⟩
    rw [Arms.bare, Arms.bare, hn, hbs]

/-- A readable pattern with a readable result in front of readable arms is readable. -/
theorem readableArms_pattern {pattern result : Node} {as : Arms} (hpattern : Readable pattern)
    (hexpr : pattern.isExpr = true) (hf : pattern.isFloatFree = true) (hresult : Readable result)
    (has : ReadableArms as) (tok : Token) : ReadableArms (.pattern tok pattern result as) := by
  intro fuel depth rest r hr _ hrest
  cases fuel with
  | zero => exact rfl
  | succ fuel =>
    simp only [Arms.pieces, List.cons_append, List.append_assoc] at hr
    rw [arms]
    refine yields_bar hr fun bar r₁ hr₁ => ?_
    have hnot : ∀ k ∈ expressionKinds, k ∉ [Kind.times] := by decide
    refine yields_unless_peekIs hr₁ (hnot _ ((starts_part hexpr hf (depth + 1)).nextKind_mem _)) ?_
    refine ensures_bind (hpattern.part fuel (depth + 1) _ r₁ hr₁ (closes_fixed (by decide) _)) ?_
    rintro p r₃ ⟨hp, hr₃, -⟩
    refine yields_result hresult has hrest hr₃ fuel ?_
    intro n bs r₄ hn hbs hr₄ hbreak
    refine ⟨?_, hr₄, hbreak⟩
    rw [Arms.bare, Arms.bare, hp, hn, hbs]

/-- A selection with a readable subject and readable arms is readable. -/
theorem readable_select {subject : Node} {as : Arms} (hsubject : Readable subject)
    (has : ReadableArms as) (hdone : as.isDone = false) (tok : Token) :
    Readable (.select tok subject as) := by
  refine readable_of_select rfl rfl (fun _ _ => (by decide : Kind.matchWord ∈ atomKinds)) ?_
  intro fuel depth rest r hr hrest
  cases fuel with
  | zero => exact rfl
  | succ fuel =>
    obtain ⟨ps, hps⟩ : ∃ ps, as.pieces (depth + 1) = .indent (depth + 1) :: .fixed .bar :: ps := by
      cases as with
      | done => exact absurd hdone (by decide)
      | pattern | wildcard => exact ⟨_, rfl⟩
    simp only [Node.pieces, List.cons_append, List.append_assoc] at hr
    rw [atom]
    refine ensures_bind (yields_expect hr (by decide) (by decide)) ?_
    rintro word r₁ ⟨hword, -, hr₁, -⟩
    simp only [hword]
    refine ensures_bind (hsubject.part fuel depth _ r₁ hr₁ (closes_fixed (by decide) _)) ?_
    rintro n r₂ ⟨hn, hr₂, -⟩
    refine ensures_bind (yields_opening hr₂ (within_arms as hrest).nextKind_ne) ?_
    rintro - r₃ ⟨hr₃, hbreak⟩
    have hbar := hr₃
    rw [hps, List.cons_append, List.cons_append] at hbar
    refine ensures_bind (yields_peek_line hbar) ?_
    rintro first r₄ ⟨rfl, hfirst, hcolumn⟩
    rw [if_pos hfirst, hcolumn]
    refine ensures_bind (has fuel depth rest r₄ hr₃ hbreak hrest) ?_
    rintro bs r₅ ⟨hbs, hr₅⟩
    refine ensures_pure ⟨?_, hr₅⟩
    rw [Node.bare, Node.bare, hn, hbs]

/-! ## All expressions -/

mutual

/-- Every well-formed expression without points in its numbers is read back in every position. -/
theorem readable (e : Node) (h : e.isExpr = true) (hf : e.isFloatFree = true) : Readable e := by
  cases e with
  | reference tok name => exact readable_reference tok name
  | integer tok n =>
    rw [Node.isExpr, decide_eq_true_eq] at h
    exact readable_integer tok h
  | string tok t =>
    rw [Node.isExpr] at h
    exact readable_string tok h
  | boolean tok b => exact readable_boolean tok b
  | unary tok op operand =>
    rw [Node.isExpr, Bool.and_eq_true, List.contains_iff_mem] at h
    rw [Node.isFloatFree] at hf
    exact readable_unary (readable operand h.2 hf) h.1 tok
  | binary tok op left right =>
    simp only [Node.isExpr, Bool.and_eq_true, List.contains_iff_mem] at h
    rw [Node.isFloatFree, Bool.and_eq_true] at hf
    exact readable_binary (readable left h.1.2 hf.1) (readable right h.2 hf.2) h.1.1 tok
  | call tok name args =>
    rw [Node.isExpr, Bool.and_eq_true] at h
    rw [Node.isFloatFree] at hf
    exact readable_call (allReadable args h.2 hf) h.2 hf tok name
  | select tok subject as =>
    simp only [Node.isExpr, Bool.and_eq_true, Bool.not_eq_true'] at h
    rw [Node.isFloatFree, Bool.and_eq_true] at hf
    exact readable_select (readable subject h.1.1 hf.1) (readableArms as h.2 hf.2) h.1.2 tok
  | float => simp [Node.isFloatFree] at hf
  | _ => simp [Node.isExpr] at h

/-- All well-formed arguments without doubles are readable. -/
theorem allReadable (es : List Node) (h : Node.areExprs es = true)
    (hf : Node.areFloatFree es = true) : ∀ e ∈ es, Readable e := by
  cases es with
  | nil => exact fun _ he => absurd he List.not_mem_nil
  | cons e es =>
    rw [Node.areExprs, Bool.and_eq_true] at h
    rw [Node.areFloatFree, Bool.and_eq_true] at hf
    exact List.forall_mem_cons.mpr ⟨readable e h.1 hf.1, allReadable es h.2 hf.2⟩

/-- Well-formed arms without doubles are readable. -/
theorem readableArms (as : Arms) (h : as.areWellFormed = true) (hf : as.isFloatFree = true) :
    ReadableArms as := by
  cases as with
  | done => exact readableArms_done
  | pattern tok pattern result rest =>
    simp only [Arms.areWellFormed, Bool.and_eq_true] at h
    simp only [Arms.isFloatFree, Bool.and_eq_true] at hf
    exact readableArms_pattern (readable pattern h.1.1 hf.1.1) h.1.1 hf.1.1
      (readable result h.1.2 hf.1.2) (readableArms rest h.2 hf.2) tok
  | wildcard tok result rest =>
    rw [Arms.areWellFormed, Bool.and_eq_true] at h
    rw [Arms.isFloatFree, Bool.and_eq_true] at hf
    exact readableArms_wildcard (readable result h.1 hf.1) (readableArms rest h.2 hf.2) tok

end

end Grammar

end Offside
