import Mathlib.Data.Nat.Init
import Offside.Proofs.Token.Printed
import Offside.Proofs.Tree.Moved
import Offside.Proofs.Tree.StatementComplete

/-!
# Precedence and associativity

A formula is an expression without selections and without points in its numbers. It is written
tersely if only those operands stand in parentheses that the levels of the operators require: an
operation of a looser level, on the right also one of the same level, and any binary operation after
a sign. What is written tersely is read back (`required_parentheses_suffice`).

An operation is read at its own level by a loop, which starts on the leftmost operand of a chain of
operations of that level. So it cannot be read before what follows it is known, and the induction
over formulas carries two facts. `Reads` is about a formula that nothing of its level or of a
tighter one follows; `Chains` is about a formula that an operation of its level may follow, and says
that the loop goes on from it as its left operand.
-/

set_option autoImplicit false

namespace Offside

/-! ## Terse writing -/

/-- The level of a binary operator, counted from the loosest one. -/
def Grammar.levelOf (op : Kind) : Nat := Grammar.levels.findIdx fun level => level.contains op

/-- Whether a node is a binary operation of a looser level than the given one. -/
def Node.isLooser (level : Nat) : Node → Bool
  | .binary _ op _ _ => Grammar.levelOf op < level
  | _ => false

namespace Kind

/-- The kind and the value of a token whose kind has one spelling. -/
def fixed (k : Kind) : Kind × String := (k, k.spelling)

/-- Words in parentheses, if there have to be any. -/
def enclosed (parens : Bool) (ws : List (Kind × String)) : List (Kind × String) :=
  if parens then fixed .leftParen :: (ws ++ [fixed .rightParen]) else ws

/-- The kind of the first word, which is the end if there is none. -/
def leading : List (Kind × String) → Kind
  | [] => .endOfInput
  | w :: _ => w.1

end Kind

mutual

/-- The words of a formula, with the parentheses that the levels require. -/
def Node.terse : Node → List (Kind × String)
  | .reference _ name => [(.identifier, name)]
  | .integer _ n => [(.integer, n.toNatClampNeg.repr)]
  | .string _ t => [(.string, t.toString?.getD "")]
  | .boolean _ b => [(.boolean, if b then "true" else "false")]
  | .unary _ op operand =>
      op.fixed :: Kind.enclosed (operand.isLooser Grammar.levels.length) operand.terse
  | .binary _ op left right =>
      Kind.enclosed (left.isLooser (Grammar.levelOf op)) left.terse ++
        op.fixed :: Kind.enclosed (right.isLooser (Grammar.levelOf op + 1)) right.terse
  | .call _ name args =>
      (.identifier, name) :: Kind.leftParen.fixed ::
        (Node.terseList [] args ++ [Kind.rightParen.fixed])
  | _ => []

/-- The words of arguments with commas between them, the first one after the given words. -/
def Node.terseList : (lead : List (Kind × String)) → List Node → List (Kind × String)
  | _, [] => []
  | lead, e :: rest => lead ++ (e.terse ++ Node.terseList [Kind.comma.fixed] rest)

end

mutual

/-- Whether a node is an expression without selections and without points in its numbers. -/
def Node.isFormula : Node → Bool
  | .reference _ name => isName name
  | .integer _ n => 0 ≤ n
  | .string _ t => t.isValid
  | .boolean .. => true
  | .unary _ op operand => Grammar.unaryOperators.contains op && operand.isFormula
  | .binary _ op left right =>
      Grammar.binaryOperators.contains op && left.isFormula && right.isFormula
  | .call _ name args => isName name && Node.areFormulas args
  | _ => false

/-- Whether all nodes are formulas. -/
def Node.areFormulas : List Node → Bool
  | [] => true
  | e :: rest => e.isFormula && Node.areFormulas rest

end

mutual

/-- A formula with the tokens that are written for it, all of them at one place. -/
def Node.spelled : Node → Node
  | .reference _ name => .reference ⟨.identifier, name, .start⟩ name
  | .integer _ n => .integer ⟨.integer, n.toNatClampNeg.repr, .start⟩ n
  | .string _ t => .string ⟨.string, t.toString?.getD "", .start⟩ t
  | .boolean _ b => .boolean ⟨.boolean, if b then "true" else "false", .start⟩ b
  | .unary _ op operand => .unary ⟨op, op.spelling, .start⟩ op operand.spelled
  | .binary _ op left right => .binary ⟨op, op.spelling, .start⟩ op left.spelled right.spelled
  | .call _ name args => .call ⟨.identifier, name, .start⟩ name (Node.allSpelled args)
  | n => n

/-- Formulas with the tokens that are written for them. -/
def Node.allSpelled : List Node → List Node
  | [] => []
  | e :: rest => e.spelled :: Node.allSpelled rest

end

/-! ## Readings that offer words -/

/-- The words are to come on the line that is being read, and then the source ends. -/
structure Reading.Offers (r : Reading) (ws : List (Kind × String)) : Prop where
  front : r.front.map (fun t => (t.kind, t.value)) = ws
  final : ∃ t, r.final = .ok t ∧ t.kind = .endOfInput
  line : r.afterBreak = false

namespace Reading.Offers

open Grammar

variable {r : Reading} {ws : List (Kind × String)} {k : Kind} {value : String}

/-- A reading that offers words faces the first of them. -/
theorem faces (h : r.Offers ws) : r.Faces (Kind.leading ws) := by
  obtain ⟨hfront, ⟨t, hfinal, ht⟩, -⟩ := h
  unfold Faces Reading.next?
  cases hf : r.front with
  | nil =>
    rw [hf] at hfront
    rw [← hfront, hfinal]
    exact ⟨t, rfl, ht⟩
  | cons u more =>
    rw [hf] at hfront
    rw [← hfront]
    exact ⟨u, rfl, rfl⟩

/-- A reading that offers words has the first of them for its next token. -/
theorem exists_front (h : r.Offers ((k, value) :: ws)) :
    ∃ pos more, r.front = ⟨k, value, pos⟩ :: more ∧
      Offers { r with front := more, afterBreak := false } ws := by
  obtain ⟨t, more, hfront, ht, hmore⟩ := List.map_eq_cons_iff.mp h.front
  obtain ⟨kind, v, pos⟩ := t
  obtain ⟨rfl, rfl⟩ := Prod.mk.injEq .. ▸ ht
  exact ⟨pos, more, hfront, hmore, h.final, rfl⟩

/-- The first of the words is taken. -/
theorem yields_next (h : r.Offers ((k, value) :: ws)) (hk : k ≠ .newline) :
    Yields next r fun t r' => (∃ pos, t = ⟨k, value, pos⟩) ∧ r'.Offers ws := by
  obtain ⟨pos, more, hfront, hmore⟩ := h.exists_front
  refine ensures_mono (yields_next_of_front hfront hk) ?_
  rintro t r' ⟨rfl, rfl⟩
  exact ⟨⟨pos, rfl⟩, hmore⟩

/-- The first of the words is taken if it is of the kinds. -/
theorem yields_expect {kinds : List Kind} (h : r.Offers ((k, value) :: ws)) (hk : k ≠ .newline)
    (hkinds : k ∈ kinds) :
    Yields (expect kinds) r fun t r' => (∃ pos, t = ⟨k, value, pos⟩) ∧ r'.Offers ws := by
  obtain ⟨pos, more, hfront, hmore⟩ := h.exists_front
  refine ensures_mono (yields_expect_of_front hfront hk hkinds) ?_
  rintro t r' ⟨rfl, rfl⟩
  exact ⟨⟨pos, rfl⟩, hmore⟩

end Reading.Offers

namespace Grammar

/-! ## The levels of the operators -/

/-- The operators of a level. -/
def level (k : Nat) : List Kind := levels[k]?.getD []

/-- The levels from some level on are that level and the tighter ones. -/
theorem drop_levels {k : Nat} (hk : k < levels.length) :
    levels.drop k = level k :: levels.drop (k + 1) := by
  unfold level
  rw [List.drop_eq_getElem_cons hk, List.getElem?_eq_getElem hk]
  rfl

/-- Every operator that stands between operands has a level. -/
theorem levelOf_lt {op : Kind} (hop : op ∈ binaryOperators) : levelOf op < levels.length := by
  revert op
  decide

/-- Every operator is in its level. -/
theorem mem_level {op : Kind} (hop : op ∈ binaryOperators) : op ∈ level (levelOf op) := by
  revert op
  decide

/-- No operator is in a tighter level than its own. -/
theorem not_mem_tighter {op : Kind} (hop : op ∈ binaryOperators) :
    op ∉ (levels.drop (levelOf op + 1)).flatten := by
  revert op
  decide

/-- What follows continues no expression of the level or of a tighter one. -/
structure Ends (k : Nat) (ws : List (Kind × String)) : Prop where
  operator : Kind.leading ws ∉ (levels.drop k).flatten
  paren : Kind.leading ws ≠ .leftParen

/-- What ends expressions of a level ends those of the next tighter one. -/
theorem Ends.tighter {k : Nat} {ws : List (Kind × String)} (h : Ends k ws) : Ends (k + 1) ws where
  operator hmem := by
    obtain ⟨kinds, hkinds, hk⟩ := List.mem_flatten.mp hmem
    rw [← List.tail_drop] at hkinds
    exact h.operator (List.mem_flatten.mpr ⟨kinds, List.mem_of_mem_tail hkinds, hk⟩)
  paren := h.paren

/-- A word that is neither an operator nor a parenthesis that opens ends expressions of all levels.
-/
theorem ends_of_not_binary {k : Kind} (hk : k ∉ binaryOperators) (hparen : k ≠ .leftParen)
    (ws : List (Kind × String)) {i : Nat} : Ends i (k.fixed :: ws) where
  operator hmem := by
    obtain ⟨kinds, hkinds, hk'⟩ := List.mem_flatten.mp hmem
    exact hk (List.mem_flatten.mpr ⟨kinds, List.mem_of_mem_drop hkinds, hk'⟩)
  paren := hparen

/-! ## One level at a time -/

/-- The formula was read, and the words are to come. -/
def ReadFormula (e : Node) (ws : List (Kind × String)) (n : Node) (r : Reading) : Prop :=
  n.moved .disregarded = e.spelled ∧ r.Offers ws

/-- Written as an operand for the level, the formula is read back, if what follows does not continue
it. -/
def Reads (e : Node) (k : Nat) : Prop :=
  ∀ (ws : List (Kind × String)) (r : Reading),
    r.Offers (Kind.enclosed (e.isLooser k) e.terse ++ ws) → Ends k ws →
    ∀ fuel, Yields (expression fuel (levels.drop k)) r (ReadFormula e ws)

/-- Written as a left operand for the level, the formula becomes the left operand of the operations
that follow it. -/
def Chains (e : Node) (k : Nat) : Prop :=
  ∀ (ws : List (Kind × String)) (r : Reading) (Q : Node → Reading → Prop),
    r.Offers (Kind.enclosed (e.isLooser k) e.terse ++ ws) → Ends (k + 1) ws →
    (∀ fuel n r', ReadFormula e ws n r' →
      Yields (operations fuel (level k) (levels.drop (k + 1)) n) r' Q) →
    ∀ fuel, Yields (expression fuel (levels.drop k)) r Q

variable {e : Node} {k : Nat} {r : Reading} {ws : List (Kind × String)}

/-- Where no operator of the kinds follows, the left operand is all there is. -/
theorem yields_no_operation (h : r.Offers ws) {kinds : List Kind} (hws : Kind.leading ws ∉ kinds)
    (tighter : List (List Kind)) (left : Node) (fuel : Nat) :
    Yields (operations fuel kinds tighter left) r fun n r' => n = left ∧ r' = r := by
  cases fuel with
  | zero => exact rfl
  | succ fuel =>
    rw [operations]
    exact h.faces.yields_unless_continuesWith (.inr hws) (ensures_pure ⟨rfl, rfl⟩)

/-- Where no operation of the level follows, the loop ends at once. -/
theorem Chains.reads (hk : k < levels.length) (h : Chains e k) : Reads e k := by
  intro ws r hr hws fuel
  refine h ws r _ hr hws.tighter (fun fuel n r' hread => ?_) fuel
  have hlevel : Kind.leading ws ∉ level k := by
    have hoperator := hws.operator
    rw [drop_levels hk, List.flatten_cons, List.mem_append, not_or] at hoperator
    exact hoperator.1
  refine ensures_mono (yields_no_operation hread.2 hlevel _ n fuel) ?_
  rintro m r'' ⟨rfl, rfl⟩
  exact hread

/-- What is written in the same way for the next tighter level is read there. -/
theorem Reads.chains (hk : k < levels.length) (hsame : e.isLooser k = e.isLooser (k + 1))
    (h : Reads e (k + 1)) : Chains e k := by
  intro ws r Q hr hws hnext fuel
  rw [hsame] at hr
  rw [drop_levels hk]
  cases fuel with
  | zero => exact rfl
  | succ fuel =>
    rw [expression]
    refine ensures_bind (h ws r hr hws fuel) ?_
    intro n r' hread
    exact hnext fuel n r' hread

/-- At its own level an operation is one round of the loop, after those of its left operand. -/
theorem chains_binary {op : Kind} (hop : op ∈ binaryOperators) {left right : Node}
    (hleft : Chains left (levelOf op)) (hright : Reads right (levelOf op + 1)) (tok : Token) :
    Chains (.binary tok op left right) (levelOf op) := by
  intro ws r Q hr hws hnext fuel
  have hplain : (Node.binary tok op left right).isLooser (levelOf op) = false := by
    simp [Node.isLooser]
  rw [hplain, Kind.enclosed, if_neg Bool.false_ne_true, Node.terse, List.append_assoc,
    List.cons_append] at hr
  have hother : op ≠ .leftParen ∧ op ≠ .newline := by
    constructor <;> rintro rfl <;> exact absurd hop (by decide)
  refine hleft _ r Q hr ⟨not_mem_tighter hop, hother.1⟩ (fun fuel n r' hread => ?_) fuel
  cases fuel with
  | zero => exact rfl
  | succ fuel =>
    rw [operations]
    refine hread.2.faces.yields_if_continuesWith hread.2.line (mem_level hop) ?_
    refine ensures_bind (hread.2.yields_next hother.2) ?_
    rintro sign r₁ ⟨⟨pos, rfl⟩, hr₁⟩
    refine ensures_bind (hright ws r₁ hr₁ hws fuel) ?_
    intro m r₂ hread₂
    refine hnext fuel _ r₂ ⟨?_, hread₂.2⟩
    rw [Node.moved, hread.1, hread₂.1]
    rfl

/-- The formula is read back at every level, and becomes a left operand at every level. -/
structure Legible (e : Node) : Prop where
  reads : ∀ k, k ≤ levels.length → Reads e k
  chains : ∀ k, k < levels.length → Chains e k

/-- What is read at a level is read at all looser ones for which it is written in the same way. -/
theorem Reads.descend {top : Nat} (htop : top ≤ levels.length) (h : Reads e top) (bottom : Nat)
    (hsame : ∀ k, bottom ≤ k → k < top → e.isLooser k = e.isLooser (k + 1)) :
    ∀ k, bottom ≤ k → k ≤ top → Reads e k := by
  intro k hbottom hle
  refine Nat.decreasingInduction' (P := Reads e) (fun i hi hki hreads => ?_) hle h
  have hi' : i < levels.length := by omega
  exact (hreads.chains hi' (hsame i (by omega) hi)).reads hi'

/-- A formula that is never put in parentheses is read at the tightest level and so at all. -/
theorem legible_of_reads (hplain : ∀ k, e.isLooser k = false) (h : Reads e levels.length) :
    Legible e := by
  have hsame : ∀ k, e.isLooser k = e.isLooser (k + 1) := by simp [hplain]
  have hreads : ∀ k, k ≤ levels.length → Reads e k := fun k hk =>
    h.descend (Nat.le_refl _) 0 (fun k _ _ => hsame k) k (Nat.zero_le k) hk
  exact ⟨hreads, fun k hk => (hreads (k + 1) hk).chains hk (hsame k)⟩

/-! ## Operands -/

/-- Nothing is looser than the loosest level. -/
theorem isLooser_zero (e : Node) : e.isLooser 0 = false := by
  cases e <;> simp [Node.isLooser]

/-- At the loosest level nothing has to be in parentheses. -/
theorem Reads.whole (h : Reads e 0) (hr : r.Offers (e.terse ++ ws)) (hws : Ends 0 ws) (fuel : Nat) :
    Yields (expression fuel levels) r (ReadFormula e ws) := by
  refine h ws r ?_ hws fuel
  rw [isLooser_zero, Kind.enclosed, if_neg Bool.false_ne_true]
  exact hr

/-- The tightest level is that of an operand with its signs. -/
theorem reads_of_unary
    (h : ∀ (ws : List (Kind × String)) (r : Reading),
      r.Offers (Kind.enclosed (e.isLooser levels.length) e.terse ++ ws) →
      Kind.leading ws ≠ .leftParen → ∀ fuel, Yields (unary fuel) r (ReadFormula e ws)) :
    Reads e levels.length := by
  intro ws r hr hws fuel
  cases fuel with
  | zero => exact rfl
  | succ fuel => exact h ws r hr hws.paren fuel

/-- What is read at the tightest level is read as an operand. -/
theorem Reads.unary (h : Reads e levels.length)
    (hr : r.Offers (Kind.enclosed (e.isLooser levels.length) e.terse ++ ws))
    (hws : Kind.leading ws ≠ .leftParen) (fuel : Nat) :
    Yields (unary fuel) r (ReadFormula e ws) :=
  h ws r hr ⟨List.not_mem_nil, hws⟩ (fuel + 1)

/-- A formula that starts with neither a sign nor an operand is read as an atom. -/
theorem reads_of_atom (hplain : e.isLooser levels.length = false)
    (hkind : ∀ ws, Kind.leading (e.terse ++ ws) ∈ atomKinds)
    (h : ∀ (ws : List (Kind × String)) (r : Reading), r.Offers (e.terse ++ ws) →
      Kind.leading ws ≠ .leftParen → ∀ fuel, Yields (atom fuel) r (ReadFormula e ws)) :
    Reads e levels.length := by
  refine reads_of_unary fun ws r hr hws fuel => ?_
  rw [hplain, Kind.enclosed, if_neg Bool.false_ne_true] at hr
  cases fuel with
  | zero => exact rfl
  | succ fuel =>
    rw [Grammar.unary]
    have hdisjoint : ∀ k ∈ atomKinds, k ∉ unaryOperators := by decide
    exact hr.faces.yields_unless_peekIs (hdisjoint _ (hkind ws)) (h ws r hr hws fuel)

/-- What stands in parentheses is read at the loosest level. -/
theorem Reads.parens (hparens : e.isLooser levels.length = true) (h : Reads e 0) :
    Reads e levels.length := by
  refine reads_of_unary fun ws r hr hws fuel => ?_
  rw [hparens, Kind.enclosed, if_pos rfl, List.cons_append, List.append_assoc] at hr
  cases fuel with
  | zero => exact rfl
  | succ fuel =>
    rw [Grammar.unary]
    refine hr.faces.yields_unless_peekIs (show Kind.leftParen ∉ unaryOperators by decide) ?_
    cases fuel with
    | zero => exact rfl
    | succ fuel =>
      rw [atom]
      refine ensures_bind (hr.yields_expect (by decide) (by decide)) ?_
      rintro paren r₁ ⟨⟨pos, rfl⟩, hr₁⟩
      dsimp only
      refine ensures_bind (h.whole hr₁ (ends_of_not_binary (by decide) (by decide) ws) fuel) ?_
      intro n r₂ hread
      refine ensures_bind (hread.2.yields_expect (by decide) (by decide)) ?_
      rintro close r₃ ⟨-, hr₃⟩
      exact ensures_pure ⟨hread.1, hr₃⟩

/-- An operation is read at its own level and at looser ones as it is, and in parentheses at tighter
ones. -/
theorem legible_binary {op : Kind} (hop : op ∈ binaryOperators) {left right : Node}
    (hleft : Legible left) (hright : Legible right) (tok : Token) :
    Legible (.binary tok op left right) := by
  have hlt := levelOf_lt hop
  have hlooser : ∀ k, (Node.binary tok op left right).isLooser k = decide (levelOf op < k) :=
    fun k => rfl
  have hown : Chains (.binary tok op left right) (levelOf op) :=
    chains_binary hop (hleft.chains _ hlt) (hright.reads _ hlt) tok
  have hbelow : ∀ k, k ≤ levelOf op → Reads (.binary tok op left right) k := fun k hk => by
    refine (hown.reads hlt).descend (Nat.le_of_lt hlt) 0 (fun i _ hi => ?_) k (Nat.zero_le k) hk
    rw [hlooser, hlooser, decide_eq_false (by omega), decide_eq_false (by omega)]
  have htop : Reads (.binary tok op left right) levels.length :=
    (hbelow 0 (Nat.zero_le _)).parens (decide_eq_true hlt)
  have hsame : ∀ k, k ≠ levelOf op → (Node.binary tok op left right).isLooser k =
      (Node.binary tok op left right).isLooser (k + 1) := by
    intro k hk
    rw [hlooser, hlooser, decide_eq_decide]
    omega
  have hreads : ∀ k, k ≤ levels.length → Reads (.binary tok op left right) k := by
    intro k hk
    rcases Nat.lt_or_ge (levelOf op) k with habove | hle
    · exact htop.descend (Nat.le_refl _) (levelOf op + 1)
        (fun i hi _ => hsame i (by omega)) k habove hk
    · exact hbelow k hle
  refine ⟨hreads, fun k hk => ?_⟩
  by_cases hself : k = levelOf op
  · exact hself ▸ hown
  · exact (hreads (k + 1) hk).chains hk (hsame k hself)

/-- An operator in front of a legible operand is legible. -/
theorem legible_unary {op : Kind} (hop : op ∈ unaryOperators) {operand : Node}
    (h : Legible operand) (tok : Token) : Legible (.unary tok op operand) := by
  refine legible_of_reads (fun _ => rfl) (reads_of_unary fun ws r hr hws fuel => ?_)
  have hnewline : op ≠ .newline := by
    rintro rfl
    exact absurd hop (by decide)
  cases fuel with
  | zero => exact rfl
  | succ fuel =>
    rw [unary]
    refine hr.faces.yields_if_peekIs hop ?_
    refine ensures_bind (hr.yields_next hnewline) ?_
    rintro sign r₁ ⟨⟨pos, rfl⟩, hr₁⟩
    refine ensures_bind ((h.reads _ (Nat.le_refl _)).unary hr₁ hws fuel) ?_
    rintro n r₂ ⟨hn, hr₂⟩
    refine ensures_pure ⟨?_, hr₂⟩
    rw [Node.moved, hn]
    rfl

/-! ## Names, literals and calls -/

/-- What is read as an atom is legible at all levels. -/
theorem legible_of_atom (hplain : ∀ k, e.isLooser k = false)
    (hkind : ∀ ws, Kind.leading (e.terse ++ ws) ∈ atomKinds)
    (h : ∀ (ws : List (Kind × String)) (r : Reading), r.Offers (e.terse ++ ws) →
      Kind.leading ws ≠ .leftParen → ∀ fuel, Yields (atom fuel) r (ReadFormula e ws)) :
    Legible e :=
  legible_of_reads hplain (reads_of_atom (hplain _) hkind h)

/-- A name is legible. -/
theorem legible_reference (tok : Token) (name : String) : Legible (.reference tok name) := by
  refine legible_of_atom (fun _ => rfl) (fun _ => (by decide : Kind.identifier ∈ atomKinds)) ?_
  intro ws r hr hws fuel
  cases fuel with
  | zero => exact rfl
  | succ fuel =>
    rw [atom]
    refine ensures_bind (hr.yields_expect (by decide) (by decide)) ?_
    rintro word r₁ ⟨⟨pos, rfl⟩, hr₁⟩
    have hparen : Kind.leading ws ∉ [Kind.leftParen] := fun hmem => hws (List.mem_singleton.mp hmem)
    exact hr₁.faces.yields_unless_peekIs hparen (ensures_pure ⟨rfl, hr₁⟩)

/-- A boolean is legible. -/
theorem legible_boolean (tok : Token) (b : Bool) : Legible (.boolean tok b) := by
  refine legible_of_atom (fun _ => rfl) (fun _ => (by decide : Kind.boolean ∈ atomKinds)) ?_
  intro ws r hr hws fuel
  cases fuel with
  | zero => exact rfl
  | succ fuel =>
    rw [atom]
    refine ensures_bind (hr.yields_expect (by decide) (by decide)) ?_
    rintro word r₁ ⟨⟨pos, rfl⟩, hr₁⟩
    refine ensures_pure ⟨?_, hr₁⟩
    cases b <;> rfl

/-- A string of whole characters is legible. -/
theorem legible_string (tok : Token) {t : Text} (ht : t.isValid = true) :
    Legible (.string tok t) := by
  obtain ⟨s, hs⟩ := Option.isSome_iff_exists.mp ht
  refine legible_of_atom (fun _ => rfl) (fun _ => (by decide : Kind.string ∈ atomKinds)) ?_
  intro ws r hr hws fuel
  cases fuel with
  | zero => exact rfl
  | succ fuel =>
    rw [atom]
    refine ensures_bind (hr.yields_expect (by decide) (by decide)) ?_
    rintro word r₁ ⟨⟨pos, rfl⟩, hr₁⟩
    refine ensures_pure ⟨?_, hr₁⟩
    rw [hs, Option.getD_some, Text.ofString_of_toString? hs, Node.moved, Node.spelled, hs]
    rfl

/-- A whole number that is not negative is legible. -/
theorem legible_integer (tok : Token) {n : Int64} (hn : 0 ≤ n) : Legible (.integer tok n) := by
  have hsmall := toNatClampNeg_lt n
  have hback : Int64.ofNat n.toNatClampNeg = n := Int64.ofNat_toNatClampNeg n hn
  refine legible_of_atom (fun _ => rfl) (fun _ => (by decide : Kind.integer ∈ atomKinds)) ?_
  intro ws r hr hws fuel
  cases fuel with
  | zero => exact rfl
  | succ fuel =>
    rw [atom]
    refine ensures_bind (hr.yields_expect (by decide) (by decide)) ?_
    rintro word r₁ ⟨⟨pos, rfl⟩, hr₁⟩
    simp only [integerLiteral, ofDigits_repr, if_pos hsmall, hback]
    exact ensures_pure ⟨rfl, hr₁⟩

/-- The arguments were read, and the words are to come. -/
def ReadFormulas (es : List Node) (ws : List (Kind × String)) (ns : List Node) (r : Reading) :
    Prop :=
  Node.allMoved .disregarded ns = Node.allSpelled es ∧ r.Offers ws

/-- What follows an argument does not continue it. -/
theorem ends_more (args : List Node) (ws : List (Kind × String)) :
    Ends 0 (Node.terseList [Kind.comma.fixed] args ++ Kind.rightParen.fixed :: ws) := by
  cases args with
  | nil => exact ends_of_not_binary (by decide) (by decide) ws
  | cons e rest => exact ends_of_not_binary (by decide) (by decide) _

/-- Further legible arguments are read up to the closing parenthesis. -/
theorem yields_moreTerse {args : List Node} (hargs : ∀ e ∈ args, Legible e)
    (hr : r.Offers (Node.terseList [Kind.comma.fixed] args ++ Kind.rightParen.fixed :: ws))
    (fuel : Nat) :
    Yields (moreArguments fuel) r (ReadFormulas args (Kind.rightParen.fixed :: ws)) := by
  induction args generalizing r fuel with
  | nil =>
    cases fuel with
    | zero => exact rfl
    | succ fuel =>
      rw [moreArguments]
      refine hr.faces.yields_unless_peekIs (show Kind.rightParen ∉ [Kind.comma] by decide) ?_
      exact ensures_pure ⟨rfl, hr⟩
  | cons e rest ih =>
    obtain ⟨he, hrest⟩ := List.forall_mem_cons.mp hargs
    rw [Node.terseList, List.append_assoc, List.append_assoc, List.singleton_append] at hr
    cases fuel with
    | zero => exact rfl
    | succ fuel =>
      rw [moreArguments]
      refine hr.faces.yields_if_peekIs (show Kind.comma ∈ [Kind.comma] by decide) ?_
      refine ensures_bind (hr.yields_next (by decide)) ?_
      rintro comma r₁ ⟨-, hr₁⟩
      refine ensures_bind ((he.reads 0 (Nat.zero_le _)).whole hr₁ (ends_more rest ws) fuel) ?_
      rintro n r₂ ⟨hn, hr₂⟩
      refine ensures_bind (ih hrest hr₂ fuel) ?_
      rintro ns r₃ ⟨hns, hr₃⟩
      refine ensures_pure ⟨?_, hr₃⟩
      rw [Node.allMoved, Node.allSpelled, hn, hns]

/-- Legible arguments are read with the closing parenthesis. -/
theorem yields_terseArguments {args : List Node} (hargs : ∀ e ∈ args, Legible e)
    (hfirst : ∀ e ∈ args, ∀ ws, Kind.leading (e.terse ++ ws) ∈ expressionKinds)
    (hr : r.Offers (Node.terseList [] args ++ Kind.rightParen.fixed :: ws)) (fuel : Nat) :
    Yields (arguments fuel) r (ReadFormulas args ws) := by
  have hclose : ∀ (ns : List Node) (r' : Reading), ReadFormulas args (Kind.rightParen.fixed :: ws)
      ns r' → Yields (do let _ ← expect [.rightParen]; pure ns) r' (ReadFormulas args ws) := by
    rintro ns r' ⟨hns, hr'⟩
    refine ensures_bind (hr'.yields_expect (by decide) (by decide)) ?_
    rintro paren r'' ⟨-, hr''⟩
    exact ensures_pure ⟨hns, hr''⟩
  cases fuel with
  | zero => exact rfl
  | succ fuel =>
    rw [arguments]
    cases args with
    | nil =>
      refine hr.faces.yields_if_peekIs (show Kind.rightParen ∈ [Kind.rightParen] by decide) ?_
      exact hclose [] r ⟨rfl, hr⟩
    | cons e rest =>
      obtain ⟨he, hrest⟩ := List.forall_mem_cons.mp hargs
      rw [Node.terseList, List.nil_append, List.append_assoc] at hr
      have hstart : ∀ k ∈ expressionKinds, k ∉ [Kind.rightParen] := by decide
      refine hr.faces.yields_unless_peekIs
        (hstart _ (hfirst e List.mem_cons_self _)) ?_
      refine ensures_bind ((he.reads 0 (Nat.zero_le _)).whole hr (ends_more rest ws) fuel) ?_
      rintro n r₁ ⟨hn, hr₁⟩
      refine ensures_bind (yields_moreTerse hrest hr₁ fuel) ?_
      rintro ns r₂ ⟨hns, hr₂⟩
      refine hclose (n :: ns) r₂ ⟨?_, hr₂⟩
      rw [Node.allMoved, Node.allSpelled, hn, hns]

/-- A call with legible arguments is legible. -/
theorem legible_call (tok : Token) (name : String) {args : List Node}
    (hargs : ∀ e ∈ args, Legible e)
    (hfirst : ∀ e ∈ args, ∀ ws, Kind.leading (e.terse ++ ws) ∈ expressionKinds) :
    Legible (.call tok name args) := by
  refine legible_of_atom (fun _ => rfl) (fun _ => (by decide : Kind.identifier ∈ atomKinds)) ?_
  intro ws r hr hws fuel
  rw [Node.terse, List.cons_append, List.cons_append, List.append_assoc] at hr
  cases fuel with
  | zero => exact rfl
  | succ fuel =>
    rw [atom]
    refine ensures_bind (hr.yields_expect (by decide) (by decide)) ?_
    rintro word r₁ ⟨⟨pos, rfl⟩, hr₁⟩
    refine hr₁.faces.yields_if_peekIs (show Kind.leftParen ∈ [Kind.leftParen] by decide) ?_
    refine ensures_bind (hr₁.yields_next (by decide)) ?_
    rintro paren r₂ ⟨-, hr₂⟩
    refine ensures_bind (yields_terseArguments hargs hfirst hr₂ fuel) ?_
    rintro ns r₃ ⟨hns, hr₃⟩
    refine ensures_pure ⟨?_, hr₃⟩
    rw [Node.moved, Node.spelled, hns]
    rfl

end Grammar

/-! ## Formulas -/

/-- A formula starts like an expression. -/
theorem Node.leading_terse (e : Node) (h : e.isFormula = true) (ws : List (Kind × String)) :
    Kind.leading (e.terse ++ ws) ∈ Grammar.expressionKinds := by
  cases e with
  | reference | call =>
    show Kind.identifier ∈ Grammar.expressionKinds
    decide
  | integer =>
    show Kind.integer ∈ Grammar.expressionKinds
    decide
  | string =>
    show Kind.string ∈ Grammar.expressionKinds
    decide
  | boolean =>
    show Kind.boolean ∈ Grammar.expressionKinds
    decide
  | unary tok op operand =>
    rw [Node.isFormula, Bool.and_eq_true, List.contains_iff_mem] at h
    exact List.mem_append_right _ h.1
  | binary tok op left right =>
    rw [Node.isFormula, Bool.and_eq_true, Bool.and_eq_true] at h
    rw [Node.terse, List.append_assoc]
    unfold Kind.enclosed
    split
    · exact List.mem_append_left _ (show Kind.leftParen ∈ Grammar.atomKinds by decide)
    · exact Node.leading_terse left h.1.2 _
  | _ => simp [Node.isFormula] at h

mutual

/-- Formulas are legible, by induction on them: operations from their operands, and calls from their
arguments. -/
theorem Node.legible (e : Node) (h : e.isFormula = true) : Grammar.Legible e := by
  cases e with
  | reference tok name => exact Grammar.legible_reference tok name
  | integer tok n =>
    rw [Node.isFormula, decide_eq_true_eq] at h
    exact Grammar.legible_integer tok h
  | string tok t => exact Grammar.legible_string tok h
  | boolean tok b => exact Grammar.legible_boolean tok b
  | unary tok op operand =>
    rw [Node.isFormula, Bool.and_eq_true, List.contains_iff_mem] at h
    exact Grammar.legible_unary h.1 (Node.legible operand h.2) tok
  | binary tok op left right =>
    simp only [Node.isFormula, Bool.and_eq_true, List.contains_iff_mem] at h
    exact Grammar.legible_binary h.1.1 (Node.legible left h.1.2) (Node.legible right h.2) tok
  | call tok name args =>
    rw [Node.isFormula, Bool.and_eq_true] at h
    obtain ⟨hlegible, hfirst⟩ := Node.allLegible args h.2
    exact Grammar.legible_call tok name hlegible hfirst
  | _ => simp [Node.isFormula] at h

/-- All formulas of a list are legible and start like expressions. -/
theorem Node.allLegible (es : List Node) (h : Node.areFormulas es = true) :
    (∀ e ∈ es, Grammar.Legible e) ∧
      ∀ e ∈ es, ∀ ws, Kind.leading (e.terse ++ ws) ∈ Grammar.expressionKinds := by
  cases es with
  | nil => simp
  | cons e rest =>
    rw [Node.areFormulas, Bool.and_eq_true] at h
    obtain ⟨hlegible, hfirst⟩ := Node.allLegible rest h.2
    exact ⟨List.forall_mem_cons.mpr ⟨Node.legible e h.1, hlegible⟩,
      List.forall_mem_cons.mpr ⟨Node.leading_terse e h.1, hfirst⟩⟩

end

/-- Every word can be read back. -/
def Kind.AllAdmitted (ws : List (Kind × String)) : Prop := ∀ w ∈ ws, w.1.admits w.2 = true

namespace Kind

/-- An operator in front of an operand is admitted in its own spelling. -/
theorem admits_fixed_of_unary {op : Kind} (hop : op ∈ Grammar.unaryOperators) :
    op.admits op.spelling = true := by
  revert op
  decide

/-- An operator between operands is admitted in its own spelling. -/
theorem admits_fixed_of_binary {op : Kind} (hop : op ∈ Grammar.binaryOperators) :
    op.admits op.spelling = true := by
  revert op
  decide

/-- Words that are admitted still are between parentheses. -/
theorem allAdmitted_enclosed {ws : List (Kind × String)} (h : AllAdmitted ws) (parens : Bool) :
    AllAdmitted (enclosed parens ws) := by
  unfold enclosed AllAdmitted
  split
  · simp only [List.forall_mem_cons, List.forall_mem_append]
    exact ⟨by decide, h, by decide, fun _ hw => absurd hw List.not_mem_nil⟩
  · exact h

end Kind

mutual

/-- All words of a formula are admitted. -/
theorem Node.allAdmitted_terse (e : Node) (h : e.isFormula = true) : Kind.AllAdmitted e.terse := by
  cases e with
  | reference tok name => exact List.forall_mem_singleton.mpr h
  | integer tok n => exact List.forall_mem_singleton.mpr (isWhole_repr _)
  | string tok t => exact List.forall_mem_singleton.mpr rfl
  | boolean tok b => cases b <;> exact List.forall_mem_singleton.mpr rfl
  | unary tok op operand =>
    rw [Node.isFormula, Bool.and_eq_true, List.contains_iff_mem] at h
    have hoperand := Node.allAdmitted_terse operand h.2
    rw [Node.terse, Kind.AllAdmitted, List.forall_mem_cons]
    exact ⟨Kind.admits_fixed_of_unary h.1, Kind.allAdmitted_enclosed hoperand _⟩
  | binary tok op left right =>
    simp only [Node.isFormula, Bool.and_eq_true, List.contains_iff_mem] at h
    have hleft := Node.allAdmitted_terse left h.1.2
    have hright := Node.allAdmitted_terse right h.2
    rw [Node.terse, Kind.AllAdmitted, List.forall_mem_append, List.forall_mem_cons]
    exact ⟨Kind.allAdmitted_enclosed hleft _, Kind.admits_fixed_of_binary h.1.1,
      Kind.allAdmitted_enclosed hright _⟩
  | call tok name args =>
    rw [Node.isFormula, Bool.and_eq_true] at h
    have hargs := Node.allAdmitted_terseList args h.2 [] fun _ hw => absurd hw List.not_mem_nil
    rw [Node.terse, Kind.AllAdmitted, List.forall_mem_cons, List.forall_mem_cons,
      List.forall_mem_append]
    exact ⟨h.1, by decide, hargs, List.forall_mem_singleton.mpr (by decide)⟩
  | _ => simp [Node.isFormula] at h

/-- All words of formulas with commas between them are admitted. -/
theorem Node.allAdmitted_terseList (es : List Node) (h : Node.areFormulas es = true)
    (lead : List (Kind × String)) (hlead : Kind.AllAdmitted lead) :
    Kind.AllAdmitted (Node.terseList lead es) := by
  cases es with
  | nil => exact fun _ hw => absurd hw List.not_mem_nil
  | cons e rest =>
    rw [Node.areFormulas, Bool.and_eq_true] at h
    have hcomma : Kind.AllAdmitted [Kind.comma.fixed] := List.forall_mem_singleton.mpr (by decide)
    rw [Node.terseList, Kind.AllAdmitted, List.forall_mem_append, List.forall_mem_append]
    exact ⟨hlead, Node.allAdmitted_terse e h.1,
      Node.allAdmitted_terseList rest h.2 _ hcomma⟩

end

/-- The reading of a printed text offers the words that were printed. -/
theorem Reading.offers_printed {ws : List (Kind × String)} (h : Kind.AllAdmitted ws) :
    (Reading.ofStream (.ofText (.printed ws))).Offers ws := by
  obtain ⟨tokens, hcut, htokens⟩ := Cut.of_printed h (fun _ => .nil) []
  rw [List.nil_append, ← Text.chars_ofChars (List.intercalate _ _)] at hcut
  obtain ⟨hhalt, hlist⟩ := TokenStream.toList_of_cut hcut
  obtain ⟨e, hfinal, he, hsplit⟩ := TokenStream.exists_toList hhalt
  rw [← hlist, hsplit, List.map_append, List.map_singleton] at htokens
  obtain ⟨hfront, -⟩ := List.append_inj' htokens rfl
  exact ⟨hfront, ⟨e, hfinal, by rw [he]⟩, rfl⟩

namespace Grammar

variable {e : Node} {r : Reading}

/-- A formula is read as a statement. -/
theorem yields_expressionStatement_formula (he : e.isFormula = true) (hr : r.Offers e.terse)
    (fuel : Nat) : Yields (expressionStatement fuel) r (ReadFormula e []) := by
  have hwhole : r.Offers (e.terse ++ []) := by rwa [List.append_nil]
  have hend : Ends 0 [] := ⟨by decide, by decide⟩
  unfold expressionStatement
  refine ensures_bind (((e.legible he).reads 0 (Nat.zero_le _)).whole hwhole hend fuel) ?_
  intro n r₁ hread
  have hassign : Kind.leading [] ∉ [Kind.assign] := by decide
  exact hread.2.faces.yields_unless_continuesWith (.inr hassign) (ensures_pure hread)

/-- Where no words are left the line is over. -/
theorem yields_endLine_over (hr : r.Offers []) : Yields endLine r fun _ r' => r' = r := by
  show Yields (if r.afterBreak then pure () else _) r _
  rw [hr.line, if_neg Bool.false_ne_true]
  have hend : Kind.leading [] ∈ [Kind.endOfInput] := by decide
  exact hr.faces.yields_if_peekIs hend (ensures_pure rfl)

/-- A formula starts with a word that starts no other statement. -/
theorem yields_statement_formula (he : e.isFormula = true) (hr : r.Offers e.terse) (fuel : Nat) :
    Yields (statement fuel) r (ReadFormula e []) := by
  have hfirst := e.leading_terse he []
  rw [List.append_nil] at hfirst
  have hwords : ∀ k ∈ expressionKinds,
      k ∉ [Kind.fnWord, Kind.ifWord, Kind.whileWord] ∧ k ≠ .letWord ∧ k ≠ .returnWord := by decide
  obtain ⟨hblock, hlet, hreturn⟩ := hwords _ hfirst
  cases fuel with
  | zero => exact rfl
  | succ fuel =>
    rw [statement]
    refine ensures_bind hr.faces.yields_peek ?_
    rintro first r₁ ⟨rfl, -, hkind⟩
    rw [← hkind] at hblock hlet hreturn
    split
    · rename_i hfn
      exact absurd (by rw [hfn]; decide) hblock
    · rename_i hif
      exact absurd (by rw [hif]; decide) hblock
    · rename_i hwhile
      exact absurd (by rw [hwhile]; decide) hblock
    · unfold simpleStatement
      rw [if_neg hlet, if_neg hreturn]
      refine ensures_bind (yields_expressionStatement_formula he hr fuel) ?_
      intro n r₂ hread
      refine ensures_bind (yields_endLine_over hread.2) ?_
      rintro - r₃ rfl
      exact ensures_pure hread

/-- Where no words are left no statements are read. -/
theorem yields_program_over (hr : r.Offers []) (fuel : Nat) :
    Yields (program fuel) r fun ns _ => ns = [] := by
  cases fuel with
  | zero => exact rfl
  | succ fuel =>
    rw [program]
    refine ensures_bind (hr.faces.yields_skipBreaks (by decide)) ?_
    rintro - r₁ rfl
    have hend : Kind.leading [] ∈ [Kind.endOfInput] := by decide
    exact hr.faces.yields_if_peekIs hend (ensures_pure rfl)

/-- A formula that takes the whole source is its only statement. -/
theorem yields_program_formula (he : e.isFormula = true) (hr : r.Offers e.terse) (fuel : Nat) :
    Yields (program fuel) r fun ns _ => ∃ n, ns = [n] ∧ n.moved .disregarded = e.spelled := by
  have hfirst := e.leading_terse he []
  rw [List.append_nil] at hfirst
  have hwords : ∀ k ∈ expressionKinds, k ≠ .newline ∧ k ∉ [Kind.endOfInput] := by decide
  obtain ⟨hnewline, hend⟩ := hwords _ hfirst
  cases fuel with
  | zero => exact rfl
  | succ fuel =>
    rw [program]
    refine ensures_bind (hr.faces.yields_skipBreaks hnewline) ?_
    rintro - r₁ rfl
    refine hr.faces.yields_unless_peekIs hend ?_
    refine ensures_bind (yields_statement_formula he hr fuel) ?_
    intro n r₂ hread
    refine ensures_bind (yields_program_over hread.2 fuel) ?_
    rintro ns r₃ rfl
    exact ensures_pure ⟨n, rfl, hread.1⟩

end Grammar

/-! ## Trees without their tokens -/

mutual

/-- A node without its tokens is the same when it is moved. -/
theorem Node.bare_moved (f : Position → Position) (n : Node) : (n.moved f).bare = n.bare := by
  cases n with
  | missing | reference | integer | float | string | boolean | nil => rfl
  | block tok statements => rw [Node.moved, Node.bare, Node.bare, Node.allBare_allMoved]
  | declaration tok name value => rw [Node.moved, Node.bare, Node.bare, Node.bare_moved]
  | assignment tok name value => rw [Node.moved, Node.bare, Node.bare, Node.bare_moved]
  | unary tok op operand => rw [Node.moved, Node.bare, Node.bare, Node.bare_moved]
  | binary tok op left right =>
    rw [Node.moved, Node.bare, Node.bare, Node.bare_moved, Node.bare_moved]
  | definition tok name params bodyTok body =>
    rw [Node.moved, Node.bare, Node.bare, Node.allBare_allMoved]
  | call tok name args => rw [Node.moved, Node.bare, Node.bare, Node.allBare_allMoved]
  | conditional tok branches => rw [Node.moved, Node.bare, Node.bare, Branches.bare_moved]
  | loop tok condition bodyTok body =>
    rw [Node.moved, Node.bare, Node.bare, Node.bare_moved, Node.allBare_allMoved]
  | ret tok value => rw [Node.moved, Node.bare, Node.bare, Node.bare_moved]
  | select tok subject arms =>
    rw [Node.moved, Node.bare, Node.bare, Node.bare_moved, Arms.bare_moved]

/-- Nodes without their tokens are the same when they are moved. -/
theorem Node.allBare_allMoved (f : Position → Position) (ns : List Node) :
    Node.allBare (Node.allMoved f ns) = Node.allBare ns := by
  cases ns with
  | nil => rfl
  | cons n rest =>
    rw [Node.allMoved, Node.allBare, Node.allBare, Node.bare_moved, Node.allBare_allMoved]

/-- Branches without their tokens are the same when they are moved. -/
theorem Branches.bare_moved (f : Position → Position) (bs : Branches) :
    (bs.moved f).bare = bs.bare := by
  cases bs with
  | done => rfl
  | otherwise bodyTok body =>
    rw [Branches.moved, Branches.bare, Branches.bare, Node.allBare_allMoved]
  | guarded condition bodyTok body rest =>
    rw [Branches.moved, Branches.bare, Branches.bare, Node.bare_moved, Node.allBare_allMoved,
      Branches.bare_moved]

/-- Arms without their tokens are the same when they are moved. -/
theorem Arms.bare_moved (f : Position → Position) (as : Arms) : (as.moved f).bare = as.bare := by
  cases as with
  | done => rfl
  | pattern tok pattern result rest =>
    rw [Arms.moved, Arms.bare, Arms.bare, Node.bare_moved, Node.bare_moved, Arms.bare_moved]
  | wildcard tok result rest =>
    rw [Arms.moved, Arms.bare, Arms.bare, Node.bare_moved, Arms.bare_moved]

end

mutual

/-- A node with other tokens is the same without them. -/
theorem Node.bare_spelled (e : Node) : e.spelled.bare = e.bare := by
  cases e with
  | unary tok op operand => rw [Node.spelled, Node.bare, Node.bare, Node.bare_spelled]
  | binary tok op left right =>
    rw [Node.spelled, Node.bare, Node.bare, Node.bare_spelled, Node.bare_spelled]
  | call tok name args => rw [Node.spelled, Node.bare, Node.bare, Node.allBare_allSpelled]
  | _ => rfl

/-- Nodes with other tokens are the same without them. -/
theorem Node.allBare_allSpelled (es : List Node) :
    Node.allBare (Node.allSpelled es) = Node.allBare es := by
  cases es with
  | nil => rfl
  | cons e rest =>
    rw [Node.allSpelled, Node.allBare, Node.allBare, Node.bare_spelled, Node.allBare_allSpelled]

end

/-- A formula that is written with no more parentheses than the levels of the operators require, its
words separated by blanks, is read back as the only statement of a program: it is the same tree, with
the tokens that were written for it. -/
theorem required_parentheses_suffice {e : Node} (h : e.isFormula = true) :
    ∃ n, (Parse.ofText (.printed e.terse)).outcome = .ok (.block .origin [n]) ∧
      n.bare = e.bare ∧ n.moved .disregarded = e.spelled := by
  have hoffers := Reading.offers_printed (e.allAdmitted_terse h)
  obtain ⟨ns, left, ⟨n, rfl, hn⟩, hread⟩ := Parse.ofText_of_yields fun fuel =>
    Grammar.yields_program_formula h hoffers fuel
  refine ⟨n, hread, ?_, hn⟩
  calc n.bare = (n.moved .disregarded).bare := (n.bare_moved _).symm
    _ = e.spelled.bare := by rw [hn]
    _ = e.bare := e.bare_spelled

/-- A difference as a factor, a comparison on the right of a conjunction, which is of the same
level, and two remainders one after the other. -/
theorem required_parentheses_suffice_mixed :
    let name := fun s => Node.reference .origin s
    let number := fun n => Node.integer .origin n
    let product := Node.binary .origin .times (.binary .origin .minus (number 2) (name "x"))
      (.unary .origin .minus (name "y"))
    let remainder := Node.binary .origin .modulo
      (.binary .origin .modulo (number 3) (number 2)) (name "y")
    let call := Node.call .origin "f" [.string .origin (.ofString "s"), remainder]
    let e := Node.binary .origin .andWord (.binary .origin .minus (number 1) product)
      (.binary .origin .less (name "a") call)
    let text := Text.ofString "1 - ( 2 - x ) * - y and ( a < f ( \"s\" , 3 % 2 % y ) )"
    e.isFormula = true ∧ text = .printed e.terse ∧
      ∃ n, (Parse.ofText text).outcome = .ok (.block .origin [n]) ∧
        n.bare = e.bare ∧ n.moved .disregarded = e.spelled := by
  intro name number product remainder call e text
  have he : e.isFormula = true := by decide +kernel
  have htext : text = .printed e.terse := by decide +kernel
  refine ⟨he, htext, ?_⟩
  rw [htext]
  exact required_parentheses_suffice he

end Offside
