import Offside.Proofs.Tree.Comparison

/-!
# The grammar in lockstep

Every piece of the grammar agrees with itself along a comparison, whatever the fuel of the two runs.
For expressions and for headers the comparison may be full or flat. A statement of one line ends in
its own way, so what holds behind it is a parameter of `StatementsAgree`; the pieces that only a
block leads to ask for a full comparison.
-/

set_option autoImplicit false

namespace Offside

namespace Grammar

open Reading

variable {C : Comparison} {r r' : Reading} {m n : Nat}

section Choices

variable {α : Type} {f f' : Token → Grammar α} {q q' : Grammar α} {kinds : List Kind}
  {K : α → Reading → Reading → Prop}

/-- Both runs take a token of plain kinds if it is next, and make the same choice. -/
theorem agrees_if_peekIs (hr : C.related r r') (hplain : Plain kinds)
    (hf : ∀ t r₁ r₁', C.known t → C.related r₁ r₁' → Agrees C (f t) (f' t) r₁ r₁' K)
    (hq : Agrees C q q' r r' K) :
    Agrees C (do if ← peekIs kinds then let t ← next; f t else q)
      (do if ← peekIs kinds then let t ← next; f' t else q') r r' K := by
  refine agrees_bind (agrees_peekIs hr (by simp [hplain.1, hplain.2])) ?_
  rintro b r₁ r₁' ⟨rfl, rfl, t, ht, rfl⟩
  refine agrees_ite (fun hone => ?_) fun _ => hq
  have hend : t.kind ≠ .endOfInput := by
    intro h
    exact hplain.1 (h ▸ isOneOf_iff.mp hone)
  refine agrees_bind (agrees_next hr ht hend) ?_
  rintro u r₂ r₂' ⟨rfl, hknown, hr₂⟩
  exact hf u r₂ r₂' hknown hr₂

/-- Both runs take a token of plain kinds if it is next on the line, and make the same choice. -/
theorem agrees_if_continuesWith (hr : C.related r r') (hplain : Plain kinds)
    (hf : ∀ t r₁ r₁', C.known t → C.related r₁ r₁' → Agrees C (f t) (f' t) r₁ r₁' K)
    (hq : Agrees C q q' r r' K) :
    Agrees C (do if ← continuesWith kinds then let t ← next; f t else q)
      (do if ← continuesWith kinds then let t ← next; f' t else q') r r' K := by
  refine agrees_bind (agrees_continuesWith hr hplain) ?_
  rintro b r₁ r₁' ⟨rfl, rfl, hb⟩
  refine agrees_ite (fun hone => ?_) fun _ => hq
  obtain ⟨t, ht, hkind⟩ := hb hone
  have hend : t.kind ≠ .endOfInput := by
    intro h
    exact hplain.1 (h ▸ isOneOf_iff.mp hkind)
  refine agrees_bind (agrees_next hr ht hend) ?_
  rintro u r₂ r₂' ⟨rfl, hknown, hr₂⟩
  exact hf u r₂ r₂' hknown hr₂

end Choices

/-- Two runs of a piece of the grammar agree on related readings and leave related readings. -/
abbrev Lockstep {α : Type} (C : Comparison) (p p' : Grammar α) : Prop :=
  ∀ {r r'}, C.related r r' → Agrees C p p' r r' fun _ r₁ r₁' => C.related r₁ r₁'

/-- A first run that is out of fuel is in lockstep with anything. -/
theorem lockstep_starved {α : Type} {p' : Grammar α} : Lockstep C (throw .outOfFuel) p' :=
  fun _ => agrees_starved

/-- A second run that is out of fuel is in lockstep with anything. -/
theorem lockstep_starving {α : Type} {p : Grammar α} : Lockstep C p (throw .outOfFuel) :=
  fun _ => agrees_starving

/-- Both runs take a closing parenthesis or blame the same token. -/
theorem agrees_close {α : Type} (a : α) :
    Lockstep C (do let _ ← expect [.rightParen]; pure a)
      (do let _ ← expect [.rightParen]; pure a) := by
  intro r r' hr
  refine agrees_bind (agrees_expect hr (by decide)) ?_
  rintro paren r₁ r₁' ⟨-, -, hr₁, -⟩
  exact agrees_pure hr₁

/-! ## Expressions -/

/-- The literal of a whole number is made alike in both runs. -/
theorem agrees_integerLiteral {tok : Token} (htok : C.known tok) :
    Lockstep C (integerLiteral tok) (integerLiteral tok) := by
  intro r r' hr
  unfold integerLiteral
  exact agrees_ite (fun _ => agrees_pure hr) fun _ => agrees_blame _ _ htok

/-- The literal of a double is made alike in both runs. -/
theorem agrees_floatLiteral {tok : Token} (htok : C.known tok) :
    Lockstep C (floatLiteral tok) (floatLiteral tok) := by
  intro r r' hr
  unfold floatLiteral
  cases Numeral.finite? tok.value.toList with
  | some x => exact agrees_pure hr
  | none => exact agrees_blame _ _ htok

/-- What holds of the pieces of the grammar for expressions with the given amounts of fuel. -/
structure ExpressionsAgree (C : Comparison) (m n : Nat) : Prop where
  expression : ∀ lv, (∀ level ∈ lv, Plain level) → Lockstep C (expression m lv) (expression n lv)
  operations : ∀ level tighter left, (∀ l ∈ level :: tighter, Plain l) →
    Lockstep C (operations m level tighter left) (operations n level tighter left)
  unary : Lockstep C (unary m) (unary n)
  atom : Lockstep C (atom m) (atom n)
  arguments : Lockstep C (arguments m) (arguments n)
  moreArguments : Lockstep C (moreArguments m) (moreArguments n)
  arms : C.Full → ∀ column, Lockstep C (arms m column) (arms n column)

section Expressions

variable (ih : ExpressionsAgree C m n)
include ih

/-- Expressions of all levels are read in lockstep. -/
theorem ExpressionsAgree.whole : Lockstep C (Grammar.expression m levels)
    (Grammar.expression n levels) :=
  ih.expression levels (by decide)

/-- Expressions of some levels are read in lockstep if their parts are. -/
theorem agrees_expression {lv : List (List Kind)} (hlv : ∀ level ∈ lv, Plain level) :
    Lockstep C (expression (m + 1) lv) (expression (n + 1) lv) := by
  intro r r' hr
  cases lv with
  | nil =>
    rw [expression, expression]
    exact ih.unary hr
  | cons level tighter =>
    rw [expression, expression]
    have htighter : ∀ l ∈ tighter, Plain l := fun l hl => hlv l (List.mem_cons_of_mem _ hl)
    refine agrees_bind (ih.expression tighter htighter hr) ?_
    intro left r₁ r₁' hr₁
    exact ih.operations level tighter left hlv hr₁

/-- Operations are read in lockstep if their operands are. -/
theorem agrees_operations {level : List Kind} {tighter : List (List Kind)} (left : Node)
    (hlv : ∀ l ∈ level :: tighter, Plain l) :
    Lockstep C (operations (m + 1) level tighter left) (operations (n + 1) level tighter left) := by
  intro r r' hr
  rw [operations, operations]
  refine agrees_if_continuesWith hr (hlv level List.mem_cons_self) ?_ (agrees_pure hr)
  intro tok r₁ r₁' _ hr₁
  refine agrees_bind (ih.expression tighter (fun l hl => hlv l (List.mem_cons_of_mem _ hl)) hr₁) ?_
  intro right r₂ r₂' hr₂
  exact ih.operations level tighter _ hlv hr₂

/-- Operands with their signs are read in lockstep if their parts are. -/
theorem agrees_unary : Lockstep C (unary (m + 1)) (unary (n + 1)) := by
  intro r r' hr
  rw [unary, unary]
  refine agrees_if_peekIs hr (by decide) ?_ (ih.atom hr)
  intro tok r₁ r₁' _ hr₁
  refine agrees_bind (ih.unary hr₁) ?_
  intro operand r₂ r₂' hr₂
  exact agrees_pure hr₂

/-- Arguments are read in lockstep if their expressions are. -/
theorem agrees_arguments : Lockstep C (arguments (m + 1)) (arguments (n + 1)) := by
  intro r r' hr
  rw [arguments, arguments]
  refine agrees_bind (agrees_peekIs hr (by decide)) ?_
  rintro b r₁ r₁' ⟨rfl, rfl, -⟩
  refine agrees_ite (fun _ => agrees_close [] hr) fun _ => ?_
  refine agrees_bind (ih.whole hr) ?_
  intro arg r₂ r₂' hr₂
  refine agrees_bind (ih.moreArguments hr₂) ?_
  intro rest r₃ r₃' hr₃
  exact agrees_close _ hr₃

/-- Further arguments are read in lockstep if their expressions are. -/
theorem agrees_moreArguments : Lockstep C (moreArguments (m + 1)) (moreArguments (n + 1)) := by
  intro r r' hr
  rw [moreArguments, moreArguments]
  refine agrees_if_peekIs hr (by decide) ?_ (agrees_pure hr)
  intro comma r₁ r₁' _ hr₁
  refine agrees_bind (ih.whole hr₁) ?_
  intro arg r₂ r₂' hr₂
  refine agrees_bind (ih.moreArguments hr₂) ?_
  intro rest r₃ r₃' hr₃
  exact agrees_pure hr₃

/-- The result of an arm and the arms after it. -/
theorem agrees_armResult (hfull : C.Full) (column : Int) (f : Node → Arms → Arms) :
    Lockstep C (do
      let _ ← expect [.arrow]
      let result ← expression m levels
      endLine
      let rest ← Grammar.arms m column
      pure (f result rest)) (do
      let _ ← expect [.arrow]
      let result ← expression n levels
      endLine
      let rest ← Grammar.arms n column
      pure (f result rest)) := by
  intro r r' hr
  refine agrees_bind (agrees_expect hr (by decide)) ?_
  rintro arrow r₁ r₁' ⟨-, -, hr₁, -⟩
  refine agrees_bind (ih.whole hr₁) ?_
  intro result r₂ r₂' hr₂
  refine agrees_bind (agrees_endLine hr₂ hfull) ?_
  intro _ r₃ r₃' hr₃
  refine agrees_bind (ih.arms hfull column hr₃) ?_
  intro rest r₄ r₄' hr₄
  exact agrees_pure hr₄

/-- Arms are read in lockstep if their parts are and both runs come to the same end. -/
theorem agrees_arms (hfull : C.Full) (column : Int) :
    Lockstep C (arms (m + 1) column) (arms (n + 1) column) := by
  intro r r' hr
  rw [arms, arms]
  refine agrees_bind (agrees_skipBreaks hr (.inr hfull)) ?_
  rintro - r₁ r₁' ⟨hr₁, -⟩
  refine agrees_bind (agrees_peek hr₁ (.inr hfull)) ?_
  rintro tok r₂ r₂' ⟨rfl, rfl, htok, -⟩
  refine agrees_ite (fun hbar => ?_) fun _ => agrees_pure hr₁
  refine agrees_bind (agrees_next hr₁ htok (by simp [hbar.1])) ?_
  rintro - r₃ r₃' ⟨-, -, hr₃⟩
  refine agrees_if_peekIs hr₃ (by decide) ?_ ?_
  · intro times r₄ r₄' _ hr₄
    exact agrees_armResult ih hfull column (.wildcard tok) hr₄
  · refine agrees_bind (ih.whole hr₃) ?_
    intro pattern r₄ r₄' hr₄
    exact agrees_armResult ih hfull column (.pattern tok pattern) hr₄

/-- A selection after its first word. -/
theorem agrees_select (hends : C.Full ∨ C.Flat) (tok : Token) :
    Lockstep C (do
      let subject ← Grammar.expression m levels
      opening
      let first ← peek
      if first.kind = .bar then
        let arms ← Grammar.arms m first.pos.column
        pure (Node.select tok subject arms)
      else fail (.unexpected first.kind [.bar] "" first.pos)) (do
      let subject ← Grammar.expression n levels
      opening
      let first ← peek
      if first.kind = .bar then
        let arms ← Grammar.arms n first.pos.column
        pure (Node.select tok subject arms)
      else fail (.unexpected first.kind [.bar] "" first.pos)) := by
  intro r r' hr
  refine agrees_bind (ih.whole hr) ?_
  intro subject r₁ r₁' hr₁
  refine agrees_bind (agrees_opening hr₁ hends) ?_
  rintro - r₂ r₂' ⟨hfull, hr₂⟩
  refine agrees_bind (agrees_peek hr₂ (.inr hfull)) ?_
  rintro first r₃ r₃' ⟨rfl, rfl, -, hknown⟩
  refine agrees_ite (fun _ => ?_) fun _ => agrees_blame _ _ hknown
  refine agrees_bind (ih.arms hfull _ hr₂) ?_
  intro arms r₄ r₄' hr₄
  exact agrees_pure hr₄

/-- Atoms are read in lockstep if their parts are. -/
theorem agrees_atom (hends : C.Full ∨ C.Flat) : Lockstep C (atom (m + 1)) (atom (n + 1)) := by
  intro r r' hr
  rw [atom, atom]
  refine agrees_bind (agrees_expect hr (by decide)) ?_
  rintro tok r₁ r₁' ⟨hkind, htok, hr₁, -⟩
  simp only [atomKinds, List.mem_cons, List.not_mem_nil, or_false] at hkind
  rcases hkind with hk | hk | hk | hk | hk | hk | hk <;> simp only [hk]
  · exact agrees_integerLiteral htok hr₁
  · exact agrees_floatLiteral htok hr₁
  · exact agrees_pure hr₁
  · exact agrees_pure hr₁
  · refine agrees_bind (ih.whole hr₁) ?_
    intro inner r₂ r₂' hr₂
    exact agrees_close inner hr₂
  · refine agrees_if_peekIs hr₁ (by decide) ?_ (agrees_pure hr₁)
    intro paren r₂ r₂' _ hr₂
    refine agrees_bind (ih.arguments hr₂) ?_
    intro args r₃ r₃' hr₃
    exact agrees_pure hr₃
  · exact agrees_select ih hends tok hr₁

end Expressions

/-- With any two amounts of fuel, expressions are read in lockstep. -/
theorem expressionsAgree (hends : C.Full ∨ C.Flat) (m n : Nat) : ExpressionsAgree C m n := by
  induction m generalizing n with
  | zero => constructor <;> intros <;> exact lockstep_starved
  | succ m ih =>
    cases n with
    | zero => constructor <;> intros <;> exact lockstep_starving
    | succ n =>
      exact {
        expression := fun _ hlv => agrees_expression (ih n) hlv
        operations := fun _ _ left hlv => agrees_operations (ih n) left hlv
        unary := agrees_unary (ih n)
        atom := agrees_atom (ih n) hends
        arguments := agrees_arguments (ih n)
        moreArguments := agrees_moreArguments (ih n)
        arms := fun hfull column => agrees_arms (ih n) hfull column }

/-! ## Statements of one line -/

/-- Further parameters are read in lockstep. -/
theorem agrees_moreParams (m n : Nat) : Lockstep C (moreParams m) (moreParams n) := by
  induction m generalizing n with
  | zero => exact lockstep_starved
  | succ m ih =>
    cases n with
    | zero => exact lockstep_starving
    | succ n =>
      intro r r' hr
      rw [moreParams, moreParams]
      refine agrees_if_peekIs hr (by decide) ?_ (agrees_pure hr)
      intro comma r₁ r₁' _ hr₁
      refine agrees_bind (agrees_expect hr₁ (by decide)) ?_
      rintro param r₂ r₂' ⟨-, -, hr₂, -⟩
      refine agrees_bind (ih n hr₂) ?_
      intro rest r₃ r₃' hr₃
      exact agrees_pure hr₃

/-- Parameters are read in lockstep. -/
theorem agrees_params : Lockstep C (params m) (params n) := by
  intro r r' hr
  unfold params
  refine agrees_bind (agrees_expect hr (by decide)) ?_
  rintro paren r₁ r₁' ⟨-, -, hr₁, -⟩
  refine agrees_bind (agrees_peekIs hr₁ (by decide)) ?_
  rintro b r₂ r₂' ⟨rfl, rfl, -⟩
  refine agrees_ite (fun _ => agrees_close [] hr₁) fun _ => ?_
  refine agrees_bind (agrees_expect hr₁ (by decide)) ?_
  rintro param r₃ r₃' ⟨-, -, hr₃, -⟩
  refine agrees_bind (agrees_moreParams m n hr₃) ?_
  intro rest r₄ r₄' hr₄
  exact agrees_close _ hr₄

section Lines

variable (hends : C.Full ∨ C.Flat)
include hends

/-- Declarations are read in lockstep. -/
theorem agrees_declaration : Lockstep C (declaration m) (declaration n) := by
  intro r r' hr
  unfold declaration
  refine agrees_bind (agrees_expect hr (by decide)) ?_
  rintro tok r₁ r₁' ⟨-, -, hr₁, -⟩
  refine agrees_bind (agrees_expect hr₁ (by decide)) ?_
  rintro name r₂ r₂' ⟨-, -, hr₂, -⟩
  refine agrees_if_peekIs hr₂ (by decide) ?_ (agrees_pure hr₂)
  intro sign r₃ r₃' _ hr₃
  refine agrees_bind ((expressionsAgree hends m n).whole hr₃) ?_
  intro value r₄ r₄' hr₄
  exact agrees_pure hr₄

/-- A `return` is read alike in both runs. -/
theorem agrees_ret (hr : C.related r r') {first : Token} (hfirst : r.next? = some first)
    (hkind : first.kind = .returnWord) :
    Agrees C (ret m) (ret n) r r' fun _ r₁ r₁' => C.related r₁ r₁' := by
  unfold ret
  refine agrees_bind (agrees_next hr hfirst (by simp [hkind])) ?_
  rintro tok r₁ r₁' ⟨-, -, hr₁⟩
  refine agrees_bind (agrees_peekIs hr₁ (by decide)) ?_
  rintro b r₂ r₂' ⟨rfl, rfl, -⟩
  refine agrees_ite (fun _ => agrees_pure hr₁) fun _ => ?_
  refine agrees_bind ((expressionsAgree hends m n).whole hr₁) ?_
  intro value r₃ r₃' hr₃
  exact agrees_pure hr₃

/-- Expressions that are statements are read in lockstep. -/
theorem agrees_expressionStatement :
    Lockstep C (expressionStatement m) (expressionStatement n) := by
  intro r r' hr
  unfold expressionStatement
  refine agrees_bind ((expressionsAgree hends m n).whole hr) ?_
  intro target r₁ r₁' hr₁
  refine agrees_if_continuesWith hr₁ (by decide) ?_ (agrees_pure hr₁)
  intro sign r₂ r₂' hsign hr₂
  cases target with
  | reference tok name =>
    refine agrees_bind ((expressionsAgree hends m n).whole hr₂) ?_
    intro value r₃ r₃' hr₃
    exact agrees_pure hr₃
  | _ => exact agrees_blame _ _ hsign

/-- A statement of one line agrees up to its end, whatever is known about that. -/
theorem agrees_simpleStatement {L : Reading → Reading → Prop}
    (hline : ∀ {s s'}, C.related s s' → Agrees C endLine endLine s s' fun _ => L)
    (hr : C.related r r') {first : Token} (hfirst : r.next? = some first) :
    Agrees C (simpleStatement m first.kind) (simpleStatement n first.kind) r r' fun _ => L := by
  have hend : ∀ {p p' : Grammar Node},
      Agrees C p p' r r' (fun _ r₁ r₁' => C.related r₁ r₁') →
      Agrees C (do let node ← p; endLine; pure node) (do let node ← p'; endLine; pure node) r r'
        fun _ => L := by
    intro p p' hp
    refine agrees_bind hp ?_
    intro node r₁ r₁' hr₁
    refine agrees_bind (hline hr₁) ?_
    intro _ r₂ r₂' hL
    exact agrees_pure hL
  unfold simpleStatement
  by_cases hlet : first.kind = .letWord
  · simp only [hlet, if_true]
    exact hend (agrees_declaration hends hr)
  · by_cases hret : first.kind = .returnWord
    · simp only [hret, reduceCtorEq, if_true, if_false]
      exact hend (agrees_ret hends hr hfirst hret)
    · simp only [hlet, hret, if_false]
      exact hend (agrees_expressionStatement hends hr)

end Lines

/-! ## Blocks and branches -/

/-- What holds of the pieces of the grammar for statements with the given amounts of fuel. -/
structure StatementsAgree (C : Comparison) (m n : Nat) : Prop where
  statement : ∀ {L : Reading → Reading → Prop},
    (∀ {r r'}, C.related r r' → Agrees C endLine endLine r r' fun _ => L) →
    (C.Full → ∀ {r r'}, C.related r r' → L r r') →
    ∀ {r r'}, C.related r r' → r.front ≠ [] ∨ C.Full →
    Agrees C (statement m) (statement n) r r' fun _ => L
  block : ∀ {r r'}, C.related r r' →
    Agrees C (block m) (block n) r r' fun _ r₁ r₁' => C.Full ∧ C.related r₁ r₁'
  statements : C.Full → ∀ column, Lockstep C (statements m column) (statements n column)
  branches : C.Full → Lockstep C (branches m) (branches n)

section Statements

variable (hends : C.Full ∨ C.Flat) (ih : StatementsAgree C m n)
include hends ih

/-- A condition and its body. -/
theorem agrees_guarded {β : Type} {K : β → Reading → Reading → Prop}
    {f f' : Node → Token × List Node → Grammar β} (hr : C.related r r')
    (h : ∀ condition b r₁ r₁', C.Full → C.related r₁ r₁' →
      Agrees C (f condition b) (f' condition b) r₁ r₁' K) :
    Agrees C (do
      let condition ← expression m levels
      let b ← Grammar.block m
      f condition b) (do
      let condition ← expression n levels
      let b ← Grammar.block n
      f' condition b) r r' K := by
  refine agrees_bind ((expressionsAgree hends m n).whole hr) ?_
  intro condition r₁ r₁' hr₁
  refine agrees_bind (ih.block hr₁) ?_
  rintro b r₂ r₂' ⟨hfull, hr₂⟩
  exact h condition b r₂ r₂' hfull hr₂

/-- A statement is read alike in both runs if its parts are, up to the end of its line. -/
theorem agrees_statement {L : Reading → Reading → Prop}
    (hline : ∀ {s s'}, C.related s s' → Agrees C endLine endLine s s' fun _ => L)
    (hfull : C.Full → ∀ {s s'}, C.related s s' → L s s') (hr : C.related r r')
    (hmore : r.front ≠ [] ∨ C.Full) :
    Agrees C (statement (m + 1)) (statement (n + 1)) r r' fun _ => L := by
  rw [statement, statement]
  refine agrees_bind (agrees_peek hr hmore) ?_
  rintro first r₁ r₁' ⟨rfl, rfl, hfirst, -⟩
  by_cases hfn : first.kind = .fnWord
  · simp only [hfn]
    refine agrees_bind (agrees_expect hr (by decide)) ?_
    rintro tok r₂ r₂' ⟨-, -, hr₂, -⟩
    refine agrees_bind (agrees_expect hr₂ (by decide)) ?_
    rintro name r₃ r₃' ⟨-, -, hr₃, -⟩
    refine agrees_bind (agrees_params hr₃) ?_
    intro names r₄ r₄' hr₄
    refine agrees_bind (ih.block hr₄) ?_
    rintro b r₅ r₅' ⟨hF, hr₅⟩
    exact agrees_pure (hfull hF hr₅)
  by_cases hif : first.kind = .ifWord
  · simp only [hif]
    refine agrees_bind (agrees_expect hr (by decide)) ?_
    rintro tok r₂ r₂' ⟨-, -, hr₂, -⟩
    refine agrees_guarded hends ih hr₂ ?_
    intro condition b r₃ r₃' hF hr₃
    refine agrees_bind (ih.branches hF hr₃) ?_
    intro rest r₄ r₄' hr₄
    exact agrees_pure (hfull hF hr₄)
  by_cases hwhile : first.kind = .whileWord
  · simp only [hwhile]
    refine agrees_bind (agrees_expect hr (by decide)) ?_
    rintro tok r₂ r₂' ⟨-, -, hr₂, -⟩
    refine agrees_guarded hends ih hr₂ ?_
    intro condition b r₃ r₃' hF hr₃
    exact agrees_pure (hfull hF hr₃)
  · -- none of the words that open blocks: a statement of one line
    split
    · exact absurd ‹_› hfn
    · exact absurd ‹_› hif
    · exact absurd ‹_› hwhile
    · exact agrees_simpleStatement hends hline hr hfirst

/-- A block is read alike in both runs, which is possible only if they come to the same end. -/
theorem agrees_block (hr : C.related r r') :
    Agrees C (block (m + 1)) (block (n + 1)) r r' fun _ r₁ r₁' => C.Full ∧ C.related r₁ r₁' := by
  rw [block, block]
  refine agrees_bind (agrees_opening hr hends) ?_
  rintro - r₁ r₁' ⟨hfull, hr₁⟩
  refine agrees_bind (agrees_peek hr₁ (.inr hfull)) ?_
  rintro first r₂ r₂' ⟨rfl, rfl, -, hknown⟩
  refine agrees_ite (fun _ => agrees_blame _ _ hknown) fun _ => ?_
  refine agrees_bind (ih.statements hfull _ hr₁) ?_
  intro body r₃ r₃' hr₃
  refine agrees_bind (agrees_note hr₃ _ _) ?_
  intro _ r₄ r₄' hr₄
  exact agrees_pure ⟨hfull, hr₄⟩

omit hends in
/-- Statements in a column are read in lockstep if each of them is. -/
theorem agrees_statements (hfull : C.Full) (column : Int) :
    Lockstep C (statements (m + 1) column) (statements (n + 1) column) := by
  intro r r' hr
  rw [statements, statements]
  refine agrees_bind (agrees_skipBreaks hr (.inr hfull)) ?_
  rintro - r₁ r₁' ⟨hr₁, -⟩
  refine agrees_bind (agrees_peek hr₁ (.inr hfull)) ?_
  rintro tok r₂ r₂' ⟨rfl, rfl, -⟩
  refine agrees_ite (fun _ => agrees_pure hr₁) fun _ => ?_
  refine agrees_bind (ih.statement (fun hs => agrees_endLine hs hfull) (fun _ _ _ hs => hs) hr₁
    (.inr hfull)) ?_
  intro first r₃ r₃' hr₃
  refine agrees_bind (ih.statements hfull column hr₃) ?_
  intro rest r₄ r₄' hr₄
  exact agrees_pure hr₄

/-- Branches are read in lockstep if their parts are. -/
theorem agrees_branches (hfull : C.Full) : Lockstep C (branches (m + 1)) (branches (n + 1)) := by
  intro r r' hr
  rw [branches, branches]
  refine agrees_if_peekIs hr (by decide) ?_ ?_
  · intro word r₁ r₁' _ hr₁
    refine agrees_guarded hends ih hr₁ ?_
    intro condition b r₂ r₂' _ hr₂
    refine agrees_bind (ih.branches hfull hr₂) ?_
    intro rest r₃ r₃' hr₃
    exact agrees_pure hr₃
  · refine agrees_if_peekIs hr (by decide) ?_ (agrees_pure hr)
    intro word r₁ r₁' _ hr₁
    refine agrees_bind (ih.block hr₁) ?_
    rintro b r₂ r₂' ⟨-, hr₂⟩
    exact agrees_pure hr₂

end Statements

/-- With any two amounts of fuel, statements are read alike in both runs. -/
theorem statementsAgree (hends : C.Full ∨ C.Flat) (m n : Nat) : StatementsAgree C m n := by
  induction m generalizing n with
  | zero =>
    exact {
      statement := fun _ _ _ _ _ _ => agrees_starved
      block := fun _ => agrees_starved
      statements := fun _ _ => lockstep_starved
      branches := fun _ => lockstep_starved }
  | succ m ih =>
    cases n with
    | zero =>
      exact {
        statement := fun _ _ _ _ _ _ => agrees_starving
        block := fun _ => agrees_starving
        statements := fun _ _ => lockstep_starving
        branches := fun _ => lockstep_starving }
    | succ n =>
      exact {
        statement := fun hline hfull _ _ hr hmore =>
          agrees_statement hends (ih n) hline hfull hr hmore
        block := fun hr => agrees_block hends (ih n) hr
        statements := fun hfull column => agrees_statements (ih n) hfull column
        branches := fun hfull => agrees_branches hends (ih n) hfull }

/-- Programs are read in lockstep if both runs come to the same end. -/
theorem agrees_program (hfull : C.Full) (m n : Nat) : Lockstep C (program m) (program n) := by
  induction m generalizing n with
  | zero => exact lockstep_starved
  | succ m ih =>
    cases n with
    | zero => exact lockstep_starving
    | succ n =>
      intro r r' hr
      rw [program, program]
      refine agrees_bind (agrees_skipBreaks hr (.inr hfull)) ?_
      rintro - r₁ r₁' ⟨hr₁, -⟩
      refine agrees_bind (K := fun _ r₂ r₂' => r₂ = r₁ ∧ r₂' = r₁') ?_ ?_
      · refine agrees_bind (agrees_peek hr₁ (.inr hfull)) ?_
        rintro t r₂ r₂' ⟨rfl, rfl, -⟩
        exact agrees_pure ⟨rfl, rfl⟩
      rintro b r₂ r₂' ⟨rfl, rfl⟩
      refine agrees_ite (fun _ => agrees_pure hr₁) fun _ => ?_
      refine agrees_bind ((statementsAgree (.inl hfull) m n).statement
        (fun hs => agrees_endLine hs hfull) (fun _ _ _ hs => hs) hr₁ (.inr hfull)) ?_
      intro first r₃ r₃' hr₃
      refine agrees_bind (ih n hr₃) ?_
      intro rest r₄ r₄' hr₄
      exact agrees_pure hr₄

end Grammar

end Offside
