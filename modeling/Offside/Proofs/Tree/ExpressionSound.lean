import Offside.Proofs.Text.Utf8
import Offside.Proofs.Tree.Ensures
import Offside.Proofs.Tree.WellFormed

/-!
# Expressions that are read are well-formed

With sixteen units of fuel for each token to come, and a few more for the way down the levels, no
piece of the grammar for expressions runs out of fuel: it gives a well-formed expression and has
taken tokens for it, or it stops with a fault. The pieces call each other, so their properties are
proved together, by induction on the fuel (`ExpressionsSound`).
-/

set_option autoImplicit false

namespace Offside

namespace Grammar

open Reading

variable {r : Reading}

/-! ## Kinds of operators -/

/-- The operators of a level stand between operands. -/
theorem mem_binaryOperators {level : List Kind} {tighter : List (List Kind)} {k : Kind}
    (hl : level :: tighter <:+ levels) (hk : k ∈ level) : k ∈ binaryOperators :=
  List.mem_flatten.mpr ⟨level, hl.mem List.mem_cons_self, hk⟩

/-- The end of the input is no operator. -/
theorem ne_endOfInput_of_binary {k : Kind} (hk : k ∈ binaryOperators) : k ≠ .endOfInput := by
  rintro rfl
  exact absurd hk (by decide)

/-- A token is one of some kinds if its kind is among them. -/
theorem isOneOf_iff {t : Token} {kinds : List Kind} : t.isOneOf kinds = true ↔ t.kind ∈ kinds :=
  List.contains_iff_mem

/-- A token is one of a single kind if that is its kind. -/
theorem isOneOf_singleton {t : Token} {k : Kind} : t.isOneOf [k] = true ↔ t.kind = k := by
  rw [isOneOf_iff, List.mem_singleton]

/-! ## Literals -/

/-- The literal of a whole number is an expression, or a fault. -/
theorem ensures_integerLiteral (tok : Token) :
    Ensures Halt.IsFault (integerLiteral tok) r fun n r' => n.isExpr = true ∧ r' = r := by
  unfold integerLiteral
  dsimp only
  split
  · rename_i hlt
    refine ensures_pure ⟨?_, rfl⟩
    have hpos : (0 : Int64) ≤ .ofNat (Numeral.ofDigits tok.value.toList) := by
      rw [Int64.le_iff_toInt_le, Int64.toInt_ofNat_of_lt (by omega)]
      exact Int.natCast_nonneg _
    simpa [Node.isExpr] using hpos
  · exact ⟨_, rfl⟩

/-- The literal of a double is an expression, or a fault. -/
theorem ensures_floatLiteral (tok : Token) :
    Ensures Halt.IsFault (floatLiteral tok) r fun n r' => n.isExpr = true ∧ r' = r := by
  unfold floatLiteral
  cases Numeral.finite? tok.value.toList with
  | some x => exact ensures_pure ⟨rfl, rfl⟩
  | none => exact ⟨_, rfl⟩

/-! ## The pieces together -/

/-- What the pieces of the grammar for expressions ensure with the given fuel. -/
structure ExpressionsSound (fuel : Nat) : Prop where
  expression : ∀ (lv : List (List Kind)) (r : Reading), r.Legal → lv <:+ levels →
    16 * r.front.length + lv.length + 3 ≤ fuel →
    Ensures Halt.IsFault (expression fuel lv) r fun n r' => n.isExpr = true ∧ r.Advances r'
  operations : ∀ (level : List Kind) (tighter : List (List Kind)) (left : Node) (r : Reading),
    r.Legal → level :: tighter <:+ levels → left.isExpr = true →
    16 * r.front.length + 1 ≤ fuel →
    Ensures Halt.IsFault (operations fuel level tighter left) r fun n r' =>
      n.isExpr = true ∧ r.Leads r'
  unary : ∀ (r : Reading), r.Legal → 16 * r.front.length + 2 ≤ fuel →
    Ensures Halt.IsFault (unary fuel) r fun n r' => n.isExpr = true ∧ r.Advances r'
  atom : ∀ (r : Reading), r.Legal → 16 * r.front.length + 1 ≤ fuel →
    Ensures Halt.IsFault (atom fuel) r fun n r' => n.isExpr = true ∧ r.Advances r'
  arguments : ∀ (r : Reading), r.Legal → 16 * r.front.length + 7 ≤ fuel →
    Ensures Halt.IsFault (arguments fuel) r fun ns r' => Node.areExprs ns = true ∧ r.Leads r'
  moreArguments : ∀ (r : Reading), r.Legal → 16 * r.front.length + 1 ≤ fuel →
    Ensures Halt.IsFault (moreArguments fuel) r fun ns r' => Node.areExprs ns = true ∧ r.Leads r'
  arms : ∀ (column : Int) (r : Reading), r.Legal → 16 * r.front.length + 1 ≤ fuel →
    Ensures Halt.IsFault (arms fuel column) r fun as r' =>
      as.areWellFormed = true ∧ r.Leads r' ∧
        ∀ t, r.next? = some t → t.kind = .bar → t.pos.column = column → as.isDone = false

section Step

variable {fuel : Nat} (ih : ExpressionsSound fuel)
include ih

/-- An expression of all levels, where at least one token was taken since the fuel was measured. -/
theorem ExpressionsSound.whole (hr : r.Legal) (hf : 16 * r.front.length + 6 ≤ fuel) :
    Ensures Halt.IsFault (Grammar.expression fuel levels) r fun n r' =>
      n.isExpr = true ∧ r.Advances r' :=
  ih.expression levels r hr (List.suffix_refl _) hf

/-- An expression of a level is one, takes a token at least, and has enough fuel. -/
theorem sound_expression (lv : List (List Kind)) (hr : r.Legal) (hlv : lv <:+ levels)
    (hf : 16 * r.front.length + lv.length + 3 ≤ fuel + 1) :
    Ensures Halt.IsFault (expression (fuel + 1) lv) r fun n r' =>
      n.isExpr = true ∧ r.Advances r' := by
  cases lv with
  | nil =>
    rw [expression]
    exact ih.unary r hr (by simpa using hf)
  | cons level tighter =>
    rw [expression]
    rw [List.length_cons] at hf
    have htighter : tighter <:+ levels := (List.suffix_cons level tighter).trans hlv
    refine ensures_bind (ih.expression tighter r hr htighter (by omega)) ?_
    rintro left r₁ ⟨hleft, hadv⟩
    have hless := hadv.fewer
    refine ensures_mono (ih.operations level tighter left r₁ (hadv.legal hr) hlv hleft
      (by omega)) ?_
    rintro n r₂ ⟨hn, hlead⟩
    exact ⟨hn, hadv.then_leads hlead⟩

/-- Operations behind an expression make an expression, and have enough fuel. -/
theorem sound_operations (level : List Kind) (tighter : List (List Kind)) (left : Node)
    (hr : r.Legal) (hlv : level :: tighter <:+ levels) (hleft : left.isExpr = true)
    (hf : 16 * r.front.length + 1 ≤ fuel + 1) :
    Ensures Halt.IsFault (operations (fuel + 1) level tighter left) r fun n r' =>
      n.isExpr = true ∧ r.Leads r' := by
  rw [operations]
  refine ensures_bind (ensures_continuesWith hr level) ?_
  rintro b r₁ ⟨rfl, hb⟩
  split
  · rename_i htrue
    obtain ⟨t, ht, hone⟩ := hb htrue
    have hop : t.kind ∈ binaryOperators := mem_binaryOperators hlv (isOneOf_iff.mp hone)
    refine ensures_bind (ensures_next hr ht (ne_endOfInput_of_binary hop)) ?_
    rintro tok r₂ ⟨rfl, htake⟩
    have hless := htake.advances.fewer
    have hr₂ := htake.advances.legal hr
    have htighter : tighter <:+ levels := (List.suffix_cons level tighter).trans hlv
    have hlength : tighter.length ≤ 3 := htighter.length_le
    refine ensures_bind (ih.expression tighter r₂ hr₂ htighter (by omega)) ?_
    rintro right r₃ ⟨hright, hadv⟩
    have hless₃ := hadv.fewer
    have hnode : (Node.binary tok tok.kind left right).isExpr = true := by
      simp [Node.isExpr, hop, hleft, hright]
    refine ensures_mono (ih.operations level tighter _ r₃ (hadv.legal hr₂) hlv hnode
      (by omega)) ?_
    rintro n r₄ ⟨hn, hlead⟩
    exact ⟨hn, (htake.advances.toLeads.trans hadv.toLeads).trans hlead⟩
  · exact ensures_pure ⟨hleft, .refl _⟩

/-- An operand with its sign is an expression, takes a token at least, and has enough fuel. -/
theorem sound_unary (hr : r.Legal) (hf : 16 * r.front.length + 2 ≤ fuel + 1) :
    Ensures Halt.IsFault (unary (fuel + 1)) r fun n r' => n.isExpr = true ∧ r.Advances r' := by
  rw [unary]
  refine ensures_bind (ensures_peekIs hr unaryOperators) ?_
  rintro b r₁ ⟨rfl, t, ht, rfl⟩
  split
  · rename_i hone
    have hop : t.kind ∈ unaryOperators := isOneOf_iff.mp hone
    have hend : t.kind ≠ .endOfInput := by
      intro h
      rw [h] at hop
      exact absurd hop (by decide)
    refine ensures_bind (ensures_next hr ht hend) ?_
    rintro tok r₂ ⟨rfl, htake⟩
    have hless := htake.advances.fewer
    refine ensures_bind (ih.unary r₂ (htake.advances.legal hr) (by omega)) ?_
    rintro operand r₃ ⟨hoperand, hadv⟩
    refine ensures_pure ⟨?_, htake.advances.then_leads hadv.toLeads⟩
    simp [Node.isExpr, hop, hoperand]
  · exact ih.atom _ hr (by omega)

/-- Arguments are expressions, and have enough fuel. -/
theorem sound_arguments (hr : r.Legal) (hf : 16 * r.front.length + 7 ≤ fuel + 1) :
    Ensures Halt.IsFault (arguments (fuel + 1)) r fun ns r' =>
      Node.areExprs ns = true ∧ r.Leads r' := by
  rw [arguments]
  refine ensures_bind (ensures_peekIs hr _) ?_
  rintro b r₁ ⟨rfl, -⟩
  have hclose : ∀ ns r', Node.areExprs ns = true → r₁.Leads r' →
      Ensures Halt.IsFault (do
        let _ ← expect [.rightParen]
        pure ns) r' fun ns r' => Node.areExprs ns = true ∧ r₁.Leads r' := by
    intro ns r' hns hlead
    refine ensures_bind (ensures_expect (hlead.legal hr) (by decide)) ?_
    rintro tok r₂ ⟨-, htake⟩
    exact ensures_pure ⟨hns, hlead.trans htake.advances.toLeads⟩
  dsimp only
  split
  · exact hclose [] r₁ rfl (.refl _)
  · refine ensures_bind (ih.whole hr (by omega)) ?_
    rintro arg r₂ ⟨harg, hadv⟩
    have hless := hadv.fewer
    refine ensures_bind (ih.moreArguments r₂ (hadv.legal hr) (by omega)) ?_
    rintro rest r₃ ⟨hrest, hlead⟩
    exact hclose (arg :: rest) r₃ (by simp [Node.areExprs, harg, hrest])
      (hadv.toLeads.trans hlead)

/-- Further arguments are expressions, and have enough fuel. -/
theorem sound_moreArguments (hr : r.Legal) (hf : 16 * r.front.length + 1 ≤ fuel + 1) :
    Ensures Halt.IsFault (moreArguments (fuel + 1)) r fun ns r' =>
      Node.areExprs ns = true ∧ r.Leads r' := by
  rw [moreArguments]
  refine ensures_bind (ensures_peekIs hr _) ?_
  rintro b r₁ ⟨rfl, t, ht, rfl⟩
  split
  · rename_i hone
    have hcomma : t.kind = .comma := isOneOf_singleton.mp hone
    refine ensures_bind (ensures_next hr ht (by rw [hcomma]; decide)) ?_
    rintro tok r₂ ⟨rfl, htake⟩
    have hless := htake.advances.fewer
    have hr₂ := htake.advances.legal hr
    refine ensures_bind (ih.whole hr₂ (by omega)) ?_
    rintro arg r₃ ⟨harg, hadv⟩
    have hless₃ := hadv.fewer
    refine ensures_bind (ih.moreArguments r₃ (hadv.legal hr₂) (by omega)) ?_
    rintro rest r₄ ⟨hrest, hlead⟩
    refine ensures_pure ⟨by simp [Node.areExprs, harg, hrest], ?_⟩
    exact (htake.advances.toLeads.trans hadv.toLeads).trans hlead
  · exact ensures_pure ⟨rfl, .refl _⟩

/-- The result of an arm and the arms after it. -/
theorem sound_armResult {β : Type} {Q : β → Reading → Prop} (column : Int) (f : Node → Arms → β)
    (hr : r.Legal) (hf : 16 * r.front.length ≤ fuel)
    (h : ∀ result as r', result.isExpr = true → as.areWellFormed = true → r.Leads r' →
      Q (f result as) r') :
    Ensures Halt.IsFault (do
      let _ ← expect [.arrow]
      let result ← expression fuel levels
      endLine
      let rest ← Grammar.arms fuel column
      pure (f result rest)) r Q := by
  refine ensures_bind (ensures_expect hr (by decide)) ?_
  rintro arrow r₁ ⟨-, htake⟩
  have hless₁ := htake.advances.fewer
  have hr₁ := htake.advances.legal hr
  refine ensures_bind (ih.whole hr₁ (by omega)) ?_
  rintro result r₂ ⟨hresult, hadv⟩
  have hless₂ := hadv.fewer
  have hr₂ := hadv.legal hr₁
  refine ensures_bind (ensures_endLine hr₂) ?_
  rintro - r₃ hlead
  have hless₃ := hlead.length_le
  refine ensures_bind (ih.arms column r₃ (hlead.legal hr₂) (by omega)) ?_
  rintro as r₄ ⟨has, hlead₄, -⟩
  refine ensures_pure (h result as r₄ hresult has ?_)
  exact ((htake.advances.toLeads.trans hadv.toLeads).trans hlead).trans hlead₄

/-- Arms are well formed and have enough fuel, and there is one if a bar stands in the column. -/
theorem sound_arms (column : Int) (hr : r.Legal) (hf : 16 * r.front.length + 1 ≤ fuel + 1) :
    Ensures Halt.IsFault (arms (fuel + 1) column) r fun as r' =>
      as.areWellFormed = true ∧ r.Leads r' ∧
        ∀ t, r.next? = some t → t.kind = .bar → t.pos.column = column → as.isDone = false := by
  rw [arms]
  refine ensures_bind (ensures_skipBreaks hr) ?_
  rintro - r₁ ⟨hfront, hfinal, -⟩
  have hskip : r.Leads r₁ := ⟨by rw [hfront]; exact List.dropWhile_suffix _, hfinal⟩
  have hr₁ := hskip.legal hr
  have hless₁ := hskip.length_le
  refine ensures_bind (ensures_peek hr₁) ?_
  rintro tok r₂ ⟨rfl, htok⟩
  split
  · rename_i hbar
    refine ensures_bind (ensures_next hr₁ htok (by rw [hbar.1]; decide)) ?_
    rintro - r₃ ⟨-, htake⟩
    have hr₃ := htake.advances.legal hr₁
    have hless₃ := htake.advances.fewer
    have hlead₃ := hskip.trans htake.advances.toLeads
    refine ensures_bind (ensures_peekIs hr₃ _) ?_
    rintro b r₄ ⟨rfl, t, ht, rfl⟩
    split
    · rename_i hone
      have htimes : t.kind = .times := isOneOf_singleton.mp hone
      refine ensures_bind (ensures_next hr₃ ht (by rw [htimes]; decide)) ?_
      rintro - r₅ ⟨-, htake₅⟩
      have hless₅ := htake₅.advances.fewer
      refine sound_armResult ih column _ (htake₅.advances.legal hr₃) (by omega) ?_
      intro result as r' hresult has hlead
      refine ⟨by simp [Arms.areWellFormed, hresult, has], ?_, fun _ _ _ _ => rfl⟩
      exact (hlead₃.trans htake₅.advances.toLeads).trans hlead
    · refine ensures_bind (ih.whole hr₃ (by omega)) ?_
      rintro pattern r₅ ⟨hpattern, hadv₅⟩
      have hless₅ := hadv₅.fewer
      refine sound_armResult ih column _ (hadv₅.legal hr₃) (by omega) ?_
      intro result as r' hresult has hlead
      refine ⟨by simp [Arms.areWellFormed, hpattern, hresult, has], ?_, fun _ _ _ _ => rfl⟩
      exact (hlead₃.trans hadv₅.toLeads).trans hlead
  · rename_i hother
    refine ensures_pure ⟨rfl, hskip, ?_⟩
    -- a bar where the arms could have started is the token that was turned down
    intro t ht hbar hcolumn
    have hsame := hr.next?_of_skipped hfront ht (by rw [hbar]; decide) (by simp [Token.isBreak, hbar])
    rw [htok] at hsame
    injection hsame with heq
    rw [heq] at hother
    exact absurd ⟨hbar, hcolumn⟩ hother

/-- A selection after its first word. -/
theorem sound_select (tok : Token) (hr : r.Legal) (hf : 16 * r.front.length + 6 ≤ fuel) :
    Ensures Halt.IsFault (do
      let subject ← Grammar.expression fuel levels
      opening
      let first ← peek
      if first.kind = .bar then
        let arms ← Grammar.arms fuel first.pos.column
        pure (Node.select tok subject arms)
      else fail (.unexpected first.kind [.bar] "" first.pos)) r fun n r' =>
        n.isExpr = true ∧ r.Leads r' := by
  refine ensures_bind (ih.whole hr hf) ?_
  rintro subject r₁ ⟨hsubject, hadv⟩
  have hr₁ := hadv.legal hr
  refine ensures_bind (ensures_opening hr₁) ?_
  rintro - r₂ ⟨hlead, hless₂, -⟩
  have hr₂ := hlead.legal hr₁
  have hless₁ := hadv.fewer
  refine ensures_bind (ensures_peek hr₂) ?_
  rintro first r₃ ⟨rfl, hfirst⟩
  split
  · rename_i hbar
    refine ensures_bind (ih.arms first.pos.column r₃ hr₂ (by omega)) ?_
    rintro as r₄ ⟨has, hlead₄, hsome⟩
    refine ensures_pure ⟨?_, (hadv.toLeads.trans hlead).trans hlead₄⟩
    simp [Node.isExpr, hsubject, has, hsome first hfirst hbar rfl]
  · exact ⟨_, rfl⟩

/-- An atom is an expression, takes a token at least, and has enough fuel. -/
theorem sound_atom (hr : r.Legal) (hf : 16 * r.front.length + 1 ≤ fuel + 1) :
    Ensures Halt.IsFault (atom (fuel + 1)) r fun n r' => n.isExpr = true ∧ r.Advances r' := by
  rw [atom]
  refine ensures_bind (ensures_expect hr (by decide)) ?_
  rintro tok r₁ ⟨hkind, htake⟩
  have hr₁ := htake.advances.legal hr
  have hless := htake.advances.fewer
  split
  · refine ensures_mono (ensures_integerLiteral tok) ?_
    rintro n r₂ ⟨hn, rfl⟩
    exact ⟨hn, htake.advances⟩
  · refine ensures_mono (ensures_floatLiteral tok) ?_
    rintro n r₂ ⟨hn, rfl⟩
    exact ⟨hn, htake.advances⟩
  · refine ensures_pure ⟨?_, htake.advances⟩
    simp [Node.isExpr, Text.isValid, Text.toString?_ofString]
  · exact ensures_pure ⟨rfl, htake.advances⟩
  · refine ensures_bind (ih.whole hr₁ (by omega)) ?_
    rintro inner r₂ ⟨hinner, hadv⟩
    refine ensures_bind (ensures_expect (hadv.legal hr₁) (by decide)) ?_
    rintro paren r₃ ⟨-, htake₃⟩
    refine ensures_pure ⟨hinner, ?_⟩
    exact (htake.advances.then_leads hadv.toLeads).then_leads htake₃.advances.toLeads
  · rename_i hident
    have hname : isName tok.value = true := (htake.legal hr).named hident
    refine ensures_bind (ensures_peekIs hr₁ _) ?_
    rintro b r₂ ⟨rfl, t, ht, rfl⟩
    split
    · rename_i hone
      have hparen : t.kind = .leftParen := isOneOf_singleton.mp hone
      refine ensures_bind (ensures_next hr₁ ht (by rw [hparen]; decide)) ?_
      rintro - r₃ ⟨-, htake₃⟩
      have hless₃ := htake₃.advances.fewer
      refine ensures_bind (ih.arguments r₃ (htake₃.advances.legal hr₁) (by omega)) ?_
      rintro args r₄ ⟨hargs, hlead⟩
      refine ensures_pure ⟨by simp [Node.isExpr, hname, hargs], ?_⟩
      exact (htake.advances.then_leads htake₃.advances.toLeads).then_leads hlead
    · exact ensures_pure ⟨by simpa [Node.isExpr] using hname, htake.advances⟩
  · refine ensures_mono (sound_select ih tok hr₁ (by omega)) ?_
    rintro n r₂ ⟨hn, hlead⟩
    exact ⟨hn, htake.advances.then_leads hlead⟩

end Step

/-- The pieces of the grammar for expressions give well-formed expressions or stop with a fault,
whatever the fuel, as long as it is enough for the tokens to come. -/
theorem expressionsSound (fuel : Nat) : ExpressionsSound fuel := by
  induction fuel with
  | zero => constructor <;> intros <;> omega
  | succ fuel ih =>
    exact {
      expression := fun lv _ hr hlv hf => sound_expression ih lv hr hlv hf
      operations := fun level tighter left _ hr hlv hleft hf =>
        sound_operations ih level tighter left hr hlv hleft hf
      unary := fun _ hr hf => sound_unary ih hr hf
      atom := fun _ hr hf => sound_atom ih hr hf
      arguments := fun _ hr hf => sound_arguments ih hr hf
      moreArguments := fun _ hr hf => sound_moreArguments ih hr hf
      arms := fun column _ hr hf => sound_arms ih column hr hf }

end Grammar

end Offside
