import Offside.Proofs.Token.Texts
import Offside.Proofs.Tree.Foresight

/-!
# Faults that no further line changes

The grammar blames a token as soon as it has seen it. So a run that stops has either not seen the end
of its source, and then it stops in the same way when the end is out of sight, or it has seen the end,
and then it has nothing else to blame. Every piece of the grammar keeps to this (`Candid`), and with
what is known of longer sources a fault in front of the end is a fault of every text that goes on with
further lines (`fault_before_end_is_final`).
-/

set_option autoImplicit false

namespace Offside

namespace Reading

/-- The reading breaks off where it used to end. -/
def cutOff (cut : Halt) (r : Reading) : Reading := { r with final := .error cut }

/-- The reading ends with the token; where that was seen already, nothing else is to come. -/
structure EndsWith (e : Token) (seen : Bool) (r : Reading) : Prop where
  final : r.final = .ok e
  front : seen = true → r.front = []

end Reading

namespace Grammar

open Reading

/-- Started before or after the end was seen, the piece of the grammar leaves results with the
property, each with the answer whether the end was seen by then. If it was not, nothing changes when
the end is out of sight; if it was, only the end is blamed. -/
def Candid {α : Type} (cut : Halt) (seen : Bool) (p : Grammar α) (r : Reading)
    (K : Bool → α → Reading → Prop) : Prop :=
  match p r with
  | .ok a left => ∃ seen', K seen' a left ∧
      (seen' = false → seen = false ∧ p (r.cutOff cut) = .ok a (left.cutOff cut))
  | .error h _ => h = .outOfFuel ∨ h.Blames (·.kind = .endOfInput) ∨
      seen = false ∧ ∃ left, p (r.cutOff cut) = .error h left

/-- The piece of the grammar is candid wherever the source ends with the token. -/
abbrev Frank {α : Type} (cut : Halt) (e : Token) (p : Grammar α) : Prop :=
  ∀ {seen r}, EndsWith e seen r → Candid cut seen p r fun seen' _ => EndsWith e seen'

variable {cut : Halt} {e : Token} {seen : Bool} {r : Reading} {m : Nat}

section Rules

variable {α β : Type} {p q : Grammar α} {f : α → Grammar β} {K L : Bool → α → Reading → Prop}
  {M : Bool → β → Reading → Prop}

/-- A result looks at no token. -/
theorem candid_pure {a : α} (h : K seen a r) : Candid cut seen (pure a) r K :=
  ⟨seen, h, fun hseen => ⟨hseen, rfl⟩⟩

/-- A run that is out of fuel need not be candid. -/
theorem candid_starved : Candid cut seen (throw .outOfFuel) r K := .inl rfl

/-- To blame a token is candid if it is the end, where that was seen. -/
theorem candid_blame {t : Token} (kinds : List Kind) (reason : String)
    (ht : seen = true → t.kind = .endOfInput) :
    Candid cut seen (fail (.unexpected t.kind kinds reason t.pos)) r K := by
  cases seen with
  | false => exact .inr (.inr ⟨rfl, _, rfl⟩)
  | true => exact .inr (.inl ⟨t, kinds, reason, ht rfl, rfl⟩)

/-- Sequences are candid if their first part is, and what follows it is for every result. -/
theorem candid_bind (hp : Candid cut seen p r K)
    (hf : ∀ seen' a r₁, K seen' a r₁ → Candid cut seen' (f a) r₁ M) :
    Candid cut seen (p >>= f) r M := by
  unfold Candid at hp
  show match EStateM.bind p f r with
    | .ok b left => ∃ seen', M seen' b left ∧
        (seen' = false → seen = false ∧ EStateM.bind p f (r.cutOff cut) = .ok b (left.cutOff cut))
    | .error h _ => h = .outOfFuel ∨ h.Blames (·.kind = .endOfInput) ∨
        seen = false ∧ ∃ left, EStateM.bind p f (r.cutOff cut) = .error h left
  unfold EStateM.bind
  cases hr : p r with
  | error h left =>
    rw [hr] at hp
    refine hp.imp_right (Or.imp_right fun ⟨hseen, left', hcut⟩ => ⟨hseen, left', ?_⟩)
    rw [hcut]
  | ok a r₁ =>
    rw [hr] at hp
    obtain ⟨seen', hK, hunseen⟩ := hp
    have hnext := hf seen' a r₁ hK
    unfold Candid at hnext
    dsimp only
    cases hr₁ : f a r₁ with
    | ok b left =>
      rw [hr₁] at hnext
      obtain ⟨seen'', hM, hunseen'⟩ := hnext
      refine ⟨seen'', hM, fun hfalse => ?_⟩
      obtain ⟨hseen', hcut'⟩ := hunseen' hfalse
      obtain ⟨hseen, hcut⟩ := hunseen hseen'
      exact ⟨hseen, by rw [hcut]; exact hcut'⟩
    | error h left =>
      rw [hr₁] at hnext
      refine hnext.imp_right (Or.imp_right fun ⟨hseen', left', hcut'⟩ => ?_)
      obtain ⟨hseen, hcut⟩ := hunseen hseen'
      exact ⟨hseen, left', by rw [hcut]; exact hcut'⟩

/-- What is candid with a stronger property is candid with a weaker one. -/
theorem candid_mono (hp : Candid cut seen p r K) (h : ∀ seen' a r₁, K seen' a r₁ → L seen' a r₁) :
    Candid cut seen p r L := by
  have hbind : Candid cut seen (p >>= pure) r L :=
    candid_bind hp fun seen' a r₁ hK => candid_pure (h seen' a r₁ hK)
  rwa [bind_pure] at hbind

/-- What the piece of the grammar does may be said by another one, also where the end is out of
sight. -/
theorem candid_congr (h : p r = q r) (hcut : p (r.cutOff cut) = q (r.cutOff cut))
    (hq : Candid cut seen q r K) : Candid cut seen p r K := by
  unfold Candid at hq ⊢
  rw [h, hcut]
  exact hq

/-- A choice is candid if both cases are. -/
theorem candid_ite {c : Prop} [Decidable c] (hp : c → Candid cut seen p r K)
    (hq : ¬ c → Candid cut seen q r K) : Candid cut seen (if c then p else q) r K := by
  by_cases hc : c
  · simpa only [hc, if_true] using hp hc
  · simpa only [hc, if_false] using hq hc

end Rules

/-- A result is frank. -/
theorem frank_pure {α : Type} (a : α) : Frank cut e (pure a) := fun hr => candid_pure hr

/-- A run that is out of fuel is frank. -/
theorem frank_starved {α : Type} : Frank cut e (throw .outOfFuel : Grammar α) :=
  fun _ => candid_starved

/-- Sequences are frank if their parts are. -/
theorem frank_bind {α β : Type} {p : Grammar α} {f : α → Grammar β} (hp : Frank cut e p)
    (hf : ∀ a, Frank cut e (f a)) : Frank cut e (p >>= f) :=
  fun hr => candid_bind (hp hr) fun _ a _ hr₁ => hf a hr₁

/-- A piece stays frank whatever is made of its result. -/
theorem frank_map {α β : Type} {p : Grammar α} (f : α → β) (hp : Frank cut e p) :
    Frank cut e (do let a ← p; pure (f a)) :=
  frank_bind hp fun a => frank_pure (f a)

/-- A choice is frank if both cases are. -/
theorem frank_ite {α : Type} {c : Prop} [Decidable c] {p q : Grammar α} (hp : Frank cut e p)
    (hq : Frank cut e q) : Frank cut e (if c then p else q) :=
  fun hr => candid_ite (fun _ => hp hr) fun _ => hq hr

/-! ## Looking at tokens and taking them -/

/-- Where tokens are to come, the end was not seen. -/
theorem unseen_of_front {t : Token} {front : List Token} (hr : EndsWith e seen r)
    (hfront : r.front = t :: front) : seen = false := by
  cases seen with
  | false => rfl
  | true => simpa [hfront] using hr.front rfl

section Tokens

variable (he : e.kind = .endOfInput)
include he

/-- A look at the next token is candid, and what it sees of the end is the end. -/
theorem candid_peek (hr : EndsWith e seen r) :
    Candid cut seen peek r fun seen' t left =>
      EndsWith e seen' left ∧ (seen' = true → t.kind = .endOfInput) := by
  unfold Candid peek
  cases hfront : r.front with
  | nil =>
    simp only [hr.final]
    exact ⟨true, ⟨⟨hr.final, fun _ => hfront⟩, fun _ => he⟩, by simp⟩
  | cons t front =>
    refine ⟨false, ⟨⟨hr.final, by simp⟩, by simp⟩, fun _ => ⟨unseen_of_front hr hfront, ?_⟩⟩
    simp [cutOff, hfront]

/-- To take the next token is candid, and what it sees of the end is the end. -/
theorem candid_next (hr : EndsWith e seen r) :
    Candid cut seen next r fun seen' t left =>
      EndsWith e seen' left ∧ (seen' = true → t.kind = .endOfInput) := by
  unfold Candid next
  cases hfront : r.front with
  | nil =>
    simp only [hr.final]
    exact ⟨true, ⟨⟨rfl, fun _ => rfl⟩, fun _ => he⟩, by simp⟩
  | cons t front =>
    refine ⟨false, ⟨⟨hr.final, by simp⟩, by simp⟩, fun _ => ⟨unseen_of_front hr hfront, ?_⟩⟩
    simp [cutOff, hfront]

/-- A token that was wanted and taken is not the end, so that the end was not seen. -/
theorem candid_expect {kinds : List Kind} (hkinds : .endOfInput ∉ kinds) (hr : EndsWith e seen r) :
    Candid cut seen (expect kinds) r fun seen' _ left => EndsWith e seen' left ∧ seen' = false := by
  refine candid_bind (candid_next he hr) ?_
  rintro seen₁ t r₁ ⟨hr₁, ht⟩
  refine candid_ite (fun hone => ?_) fun _ => candid_blame _ _ ht
  have hunseen : seen₁ = false := by
    cases seen₁ with
    | false => rfl
    | true => exact absurd (ht rfl ▸ isOneOf_iff.mp hone) hkinds
  exact candid_pure ⟨hr₁, hunseen⟩

/-- A token of some kinds that are not the end is taken, or blamed as soon as it is seen. -/
theorem frank_token {α : Type} {kinds : List Kind} {f : Token → Grammar α}
    (hkinds : .endOfInput ∉ kinds) (hf : ∀ t, Frank cut e (f t)) :
    Frank cut e (do let t ← expect kinds; f t) := by
  intro seen r hr
  refine candid_bind (candid_expect he hkinds hr) ?_
  intro seen₁ t r₁ h
  exact hf t h.1

/-- A look at the next token is frank. -/
theorem frank_peek : Frank cut e peek := fun hr =>
  candid_mono (candid_peek he hr) fun _ _ _ h => h.1

/-- To take the next token is frank. -/
theorem frank_next : Frank cut e next := fun hr =>
  candid_mono (candid_next he hr) fun _ _ _ h => h.1

/-- A look at the kind of the next token is frank. -/
theorem frank_peekIs (kinds : List Kind) : Frank cut e (peekIs kinds) := frank_map _ (frank_peek he)

/-- A look at how a line continues is frank. -/
theorem frank_continuesWith (kinds : List Kind) : Frank cut e (continuesWith kinds) := by
  intro seen r hr
  have hlook : Candid cut seen (if r.afterBreak then pure false else peekIs kinds) r
      fun seen' _ => EndsWith e seen' :=
    candid_ite (fun _ => candid_pure hr) fun _ => frank_peekIs he kinds hr
  exact candid_congr rfl rfl hlook

/-- The end of a line is frank. -/
theorem frank_endLine : Frank cut e endLine := by
  intro seen r hr
  have hline : Candid cut seen (if r.afterBreak then pure () else do
      if ← peekIs [.endOfInput] then pure () else let _ ← expect [.newline]; pure ()) r
      fun seen' _ => EndsWith e seen' := by
    refine candid_ite (fun _ => candid_pure hr) fun _ => ?_
    refine candid_bind (frank_peekIs he _ hr) ?_
    intro seen₁ b r₁ hr₁
    refine candid_ite (fun _ => candid_pure hr₁) fun _ => ?_
    exact frank_token he (by decide) (fun _ => frank_pure ()) hr₁
  exact candid_congr rfl rfl hline

/-- To skip line breaks is frank. -/
theorem frank_skipBreaks : Frank cut e skipBreaks := by
  intro seen r hr
  have hpast : EndsWith e seen r.pastBreaks := by
    refine ⟨hr.final, fun hseen => ?_⟩
    simp [pastBreaks, hr.front hseen]
  refine candid_bind (K := fun seen' _ => EndsWith e seen') ⟨seen, hpast, fun hs => ⟨hs, rfl⟩⟩ ?_
  intro seen₁ _ r₁ hr₁
  exact frank_map _ (frank_peek he) hr₁

/-- The opening of arms or a block is frank. -/
theorem frank_opening : Frank cut e opening :=
  frank_token he (by decide) fun _ => frank_token he (by decide) fun _ => frank_skipBreaks he

omit he in
/-- A note looks at no token. -/
theorem frank_note (pos : Position) (count : Nat) : Frank cut e (note pos count) := by
  intro seen r hr
  exact ⟨seen, ⟨hr.final, hr.front⟩, fun hseen => ⟨hseen, rfl⟩⟩

/-- A token that was seen is taken, and otherwise something else is done. -/
theorem frank_choice {α : Type} {look : Grammar Bool} {f : Token → Grammar α} {q : Grammar α}
    (hlook : Frank cut e look) (hf : ∀ t, Frank cut e (f t)) (hq : Frank cut e q) :
    Frank cut e (do if ← look then let t ← next; f t else q) :=
  frank_bind hlook fun _ => frank_ite (frank_bind (frank_next he) hf) hq

end Tokens

/-! ## Expressions -/

section

variable (he : e.kind = .endOfInput)
include he

/-- A closing parenthesis is frank. -/
theorem frank_close {α : Type} (a : α) :
    Frank cut e (do let _ ← expect [.rightParen]; pure a) :=
  frank_token he (by decide) fun _ => frank_pure a

omit he in
/-- The literal of a whole number blames its own token, which is not the end. -/
theorem candid_integerLiteral {tok : Token} (hr : EndsWith e false r) :
    Candid cut false (integerLiteral tok) r fun seen' _ => EndsWith e seen' := by
  unfold integerLiteral
  exact candid_ite (fun _ => candid_pure hr) fun _ => candid_blame _ _ (by simp)

omit he in
/-- The literal of a double blames its own token, which is not the end. -/
theorem candid_floatLiteral {tok : Token} (hr : EndsWith e false r) :
    Candid cut false (floatLiteral tok) r fun seen' _ => EndsWith e seen' := by
  unfold floatLiteral
  cases Numeral.finite? tok.value.toList with
  | some x => exact candid_pure hr
  | none => exact candid_blame _ _ (by simp)

/-- What holds of the pieces of the grammar for expressions with the given fuel. -/
structure ExpressionsFrank (cut : Halt) (e : Token) (m : Nat) : Prop where
  expression : ∀ lv, Frank cut e (expression m lv)
  operations : ∀ level tighter left, Frank cut e (operations m level tighter left)
  unary : Frank cut e (unary m)
  atom : Frank cut e (atom m)
  arguments : Frank cut e (arguments m)
  moreArguments : Frank cut e (moreArguments m)
  arms : ∀ column, Frank cut e (arms m column)

variable (ih : ExpressionsFrank cut e m)
include ih

omit he in
/-- An expression is frank if its parts are. -/
theorem frank_expression (lv : List (List Kind)) : Frank cut e (expression (m + 1) lv) := by
  cases lv with
  | nil =>
    simp only [expression]
    exact ih.unary
  | cons level tighter =>
    simp only [expression]
    exact frank_bind (ih.expression tighter) (ih.operations level tighter)

/-- Operations are frank if their operands are. -/
theorem frank_operations (level : List Kind) (tighter : List (List Kind)) (left : Node) :
    Frank cut e (operations (m + 1) level tighter left) := by
  simp only [operations]
  refine frank_choice he (frank_continuesWith he level) (fun tok => ?_) (frank_pure left)
  exact frank_bind (ih.expression tighter) fun right => ih.operations level tighter _

/-- An operand with its sign is frank if its parts are. -/
theorem frank_unary : Frank cut e (unary (m + 1)) := by
  simp only [unary]
  exact frank_choice he (frank_peekIs he _) (fun tok => frank_map _ ih.unary) ih.atom

/-- Arguments are frank if their expressions are. -/
theorem frank_arguments : Frank cut e (arguments (m + 1)) := by
  simp only [arguments]
  refine frank_bind (frank_peekIs he _) fun b => frank_ite (frank_close he []) ?_
  refine frank_bind (ih.expression levels) fun arg => ?_
  exact frank_bind ih.moreArguments fun rest => frank_close he _

/-- Further arguments are frank if their expressions are. -/
theorem frank_moreArguments : Frank cut e (moreArguments (m + 1)) := by
  simp only [moreArguments]
  refine frank_choice he (frank_peekIs he _) (fun comma => ?_) (frank_pure [])
  exact frank_bind (ih.expression levels) fun arg => frank_map _ ih.moreArguments

/-- What stands behind the pattern of an arm is frank if its parts are. -/
theorem frank_armResult (column : Int) (f : Node → Arms → Arms) :
    Frank cut e (do
      let _ ← expect [.arrow]
      let result ← expression m levels
      endLine
      let rest ← Grammar.arms m column
      pure (f result rest)) := by
  refine frank_token he (by decide) fun arrow => ?_
  refine frank_bind (ih.expression levels) fun result => ?_
  exact frank_bind (frank_endLine he) fun _ => frank_map _ (ih.arms column)

/-- Arms are frank if their parts are. -/
theorem frank_arms (column : Int) : Frank cut e (arms (m + 1) column) := by
  simp only [arms]
  refine frank_bind (frank_skipBreaks he) fun _ => ?_
  refine frank_bind (frank_peek he) fun tok => frank_ite ?_ (frank_pure _)
  refine frank_bind (frank_next he) fun _ => ?_
  refine frank_choice he (frank_peekIs he _) (fun times => ?_) ?_
  · exact frank_armResult he ih column (.wildcard tok)
  · exact frank_bind (ih.expression levels) fun pattern =>
      frank_armResult he ih column (.pattern tok pattern)

/-- The first token behind the opening of a selection is blamed when it is seen. -/
theorem frank_select (tok : Token) :
    Frank cut e (do
      let subject ← Grammar.expression m levels
      opening
      let first ← peek
      if first.kind = .bar then
        let arms ← Grammar.arms m first.pos.column
        pure (Node.select tok subject arms)
      else fail (.unexpected first.kind [.bar] "" first.pos)) := by
  refine frank_bind (ih.expression levels) fun subject => frank_bind (frank_opening he) fun _ => ?_
  intro seen r hr
  refine candid_bind (candid_peek he hr) ?_
  rintro seen₁ first r₁ ⟨hr₁, hfirst⟩
  refine candid_ite (fun _ => ?_) fun _ => candid_blame _ _ hfirst
  exact frank_map _ (ih.arms _) hr₁

/-- A literal that is out of range is blamed before anything behind it is seen. -/
theorem frank_atom : Frank cut e (atom (m + 1)) := by
  intro seen r hr
  simp only [atom]
  refine candid_bind (candid_expect he (by decide) hr) ?_
  rintro seen₁ tok r₁ ⟨hr₁, rfl⟩
  split
  · exact candid_integerLiteral hr₁
  · exact candid_floatLiteral hr₁
  · exact candid_pure hr₁
  · exact candid_pure hr₁
  · exact frank_bind (ih.expression levels) (fun inner => frank_close he inner) hr₁
  · exact frank_choice he (frank_peekIs he _) (fun paren => frank_map _ ih.arguments)
      (frank_pure _) hr₁
  · exact frank_select he ih tok hr₁

end

/-- With any fuel, all pieces of the grammar for expressions are frank. -/
theorem expressionsFrank (he : e.kind = .endOfInput) (m : Nat) : ExpressionsFrank cut e m := by
  induction m with
  | zero => constructor <;> intros <;> exact frank_starved
  | succ m ih =>
    exact {
      expression := frank_expression ih
      operations := frank_operations he ih
      unary := frank_unary he ih
      atom := frank_atom he ih
      arguments := frank_arguments he ih
      moreArguments := frank_moreArguments he ih
      arms := frank_arms he ih }

/-! ## Statements -/

section

variable (he : e.kind = .endOfInput)
include he

/-- An expression is frank. -/
theorem frank_value (m : Nat) : Frank cut e (expression m levels) :=
  (expressionsFrank he m).expression levels

/-- Further parameters are frank. -/
theorem frank_moreParams (m : Nat) : Frank cut e (moreParams m) := by
  induction m with
  | zero => exact frank_starved
  | succ m ih =>
    simp only [moreParams]
    refine frank_choice he (frank_peekIs he _) (fun comma => ?_) (frank_pure [])
    exact frank_token he (by decide) fun param => frank_map _ ih

/-- Parameters are frank. -/
theorem frank_params (m : Nat) : Frank cut e (params m) := by
  unfold params
  refine frank_token he (by decide) fun paren => ?_
  refine frank_bind (frank_peekIs he _) fun b => frank_ite (frank_close he []) ?_
  refine frank_token he (by decide) fun param => ?_
  exact frank_bind (frank_moreParams he m) fun rest => frank_close he _

/-- A declaration is frank. -/
theorem frank_declaration (m : Nat) : Frank cut e (declaration m) := by
  unfold declaration
  refine frank_token he (by decide) fun tok => frank_token he (by decide) fun name => ?_
  exact frank_choice he (frank_peekIs he _) (fun sign => frank_map _ (frank_value he m))
    (frank_pure _)

/-- A `return` is frank. -/
theorem frank_ret (m : Nat) : Frank cut e (ret m) := by
  unfold ret
  refine frank_bind (frank_next he) fun tok => frank_bind (frank_peekIs he _) fun b => ?_
  exact frank_ite (frank_pure _) (frank_map _ (frank_value he m))

/-- A target that cannot be assigned to is found out when the sign behind it is taken. -/
theorem frank_expressionStatement (m : Nat) : Frank cut e (expressionStatement m) := by
  unfold expressionStatement
  refine frank_bind (frank_value he m) fun target => ?_
  refine frank_bind (frank_continuesWith he _) fun b => frank_ite ?_ (frank_pure target)
  intro seen r hr
  refine candid_bind (candid_next he hr) ?_
  rintro seen₁ sign r₁ ⟨hr₁, hsign⟩
  cases target with
  | reference tok name => exact frank_map _ (frank_value he m) hr₁
  | _ => exact candid_blame _ _ hsign

/-- A statement of one line is frank. -/
theorem frank_simpleStatement (m : Nat) (kind : Kind) : Frank cut e (simpleStatement m kind) := by
  have hend : ∀ {p : Grammar Node}, Frank cut e p →
      Frank cut e (do let node ← p; endLine; pure node) :=
    fun hp => frank_bind hp fun node => frank_bind (frank_endLine he) fun _ => frank_pure node
  intro seen r hr
  unfold simpleStatement
  refine candid_ite (fun _ => hend (frank_declaration he m) hr) fun _ => ?_
  refine candid_ite (fun _ => hend (frank_ret he m) hr) fun _ => ?_
  exact hend (frank_expressionStatement he m) hr

end

/-- What holds of the pieces of the grammar for statements with the given fuel. -/
structure StatementsFrank (cut : Halt) (e : Token) (m : Nat) : Prop where
  statement : Frank cut e (statement m)
  block : Frank cut e (block m)
  statements : ∀ column, Frank cut e (statements m column)
  branches : Frank cut e (branches m)

section

variable (he : e.kind = .endOfInput) (ih : StatementsFrank cut e m)
include he ih

/-- A condition with its body is frank if what follows is. -/
theorem frank_guarded {β : Type} {f : Node → Token × List Node → Grammar β}
    (hf : ∀ condition body, Frank cut e (f condition body)) :
    Frank cut e (do
      let condition ← expression m levels
      let body ← Grammar.block m
      f condition body) :=
  frank_bind (frank_value he m) fun condition => frank_bind ih.block (hf condition)

/-- A statement is frank if its parts are. -/
theorem frank_statement : Frank cut e (statement (m + 1)) := by
  simp only [statement]
  refine frank_bind (frank_peek he) fun first => ?_
  split
  · refine frank_token he (by decide) fun tok => frank_token he (by decide) fun name => ?_
    exact frank_bind (frank_params he m) fun names => frank_map _ ih.block
  · refine frank_token he (by decide) fun tok => frank_guarded he ih fun condition body => ?_
    exact frank_map _ ih.branches
  · exact frank_token he (by decide) fun tok => frank_guarded he ih fun condition body =>
      frank_pure _
  · exact frank_simpleStatement he m _

/-- A block is frank if its statements are. -/
theorem frank_block : Frank cut e (block (m + 1)) := by
  simp only [block]
  refine frank_bind (frank_opening he) fun _ => ?_
  intro seen r hr
  refine candid_bind (candid_peek he hr) ?_
  rintro seen₁ first r₁ ⟨hr₁, hfirst⟩
  refine candid_ite (fun _ => candid_blame _ _ hfirst) fun _ => ?_
  exact frank_bind (ih.statements _) (fun body => frank_map _ (frank_note _ _)) hr₁

/-- Statements in a column are frank if each of them is. -/
theorem frank_statements (column : Int) : Frank cut e (statements (m + 1) column) := by
  simp only [statements]
  refine frank_bind (frank_skipBreaks he) fun _ => frank_bind (frank_peek he) fun tok => ?_
  refine frank_ite (frank_pure []) ?_
  exact frank_bind ih.statement fun first => frank_map _ (ih.statements column)

/-- Branches are frank if their parts are. -/
theorem frank_branches : Frank cut e (branches (m + 1)) := by
  simp only [branches]
  refine frank_choice he (frank_peekIs he _) (fun word => ?_) ?_
  · exact frank_guarded he ih fun condition body => frank_map _ ih.branches
  · exact frank_choice he (frank_peekIs he _) (fun word => frank_map _ ih.block) (frank_pure _)

end

/-- With any fuel, all pieces of the grammar for statements are frank. -/
theorem statementsFrank (he : e.kind = .endOfInput) (m : Nat) : StatementsFrank cut e m := by
  induction m with
  | zero => constructor <;> intros <;> exact frank_starved
  | succ m ih =>
    exact {
      statement := frank_statement he ih
      block := frank_block he ih
      statements := frank_statements he ih
      branches := frank_branches he ih }

/-- A program is frank. -/
theorem frank_program (he : e.kind = .endOfInput) (m : Nat) : Frank cut e (program m) := by
  induction m with
  | zero => exact frank_starved
  | succ m ih =>
    simp only [program]
    refine frank_bind (frank_skipBreaks he) fun _ => frank_bind (frank_peekIs he _) fun b => ?_
    refine frank_ite (frank_pure []) ?_
    exact frank_bind (statementsFrank he m).statement fun first => frank_map _ ih

end Grammar

/-! ## Texts -/

namespace Parse

/-- A fault of a stream that is not at its end is found without looking at the end. -/
theorem outcome_cutOff {s : TokenStream} {e : Token} {h : Halt} (hs : s.Legal)
    (hend : s.final = .ok e) (hfault : (ofStream s).outcome = .error h)
    (hearly : ∀ kinds reason pos, h ≠ .fault (.unexpected .endOfInput kinds reason pos))
    (cut : Halt) : (ofStream ⟨s.front, .error cut⟩).outcome = .error h := by
  have he : e.kind = .endOfInput := by
    have hfinal := hs.final
    rwa [hend] at hfinal
  obtain ⟨left, hrun⟩ := outcome_eq_error_iff.mp hfault
  have hcandid : Grammar.Candid cut false (Grammar.program (fuelFor s.front.length)) (.ofStream s)
      fun seen _ => Reading.EndsWith e seen :=
    Grammar.frank_program he (fuelFor s.front.length) ⟨hend, by simp⟩
  unfold Grammar.Candid at hcandid
  rw [hrun] at hcandid
  rcases hcandid with rfl | ⟨t, kinds, reason, ht, rfl⟩ | ⟨-, left', hcut⟩
  · exact absurd hfault (outcome_ne_outOfFuel hs)
  · rw [ht] at hearly
    exact absurd rfl (hearly kinds reason t.pos)
  · exact outcome_eq_error_iff.mpr ⟨left', hcut⟩

end Parse

/-- A text that is made of tokens and has a fault in front of its end keeps that fault, and no other,
whatever lines follow it. -/
theorem fault_before_end_is_final {a : Text} {h : Halt}
    (htokens : (TokenStream.ofText a).halt? = none) (hfault : (Parse.ofText a).outcome = .error h)
    (hearly : ∀ kinds reason pos, h ≠ .fault (.unexpected .endOfInput kinds reason pos))
    (b : Text) : (Parse.ofText (a ++ lineFeed :: b)).outcome = .error h := by
  obtain ⟨e, hend⟩ : ∃ e, (TokenStream.ofText a).final = .ok e := by
    unfold TokenStream.halt? at htokens
    cases hfinal : (TokenStream.ofText a).final with
    | ok e => exact ⟨e, rfl⟩
    | error x => simp [hfinal] at htokens
  have hlegal := TokenStream.ofText_legal a
  have hcut := Parse.outcome_cutOff hlegal hend hfault hearly (.fault (.unterminatedString .start))
  obtain ⟨u, more, -, hline, -⟩ := TokenStream.ofText_line hend b
  have hfront : (TokenStream.ofText a).front <+: (TokenStream.ofText (a ++ lineFeed :: b)).front := by
    rw [hline]
    exact List.prefix_append _ _
  rcases Parse.outcome_of_front (TokenStream.ofText_legal _) ⟨_, rfl⟩ hfront with hreached | hsame
  · -- the text would have to end where the run stops
    rw [hcut] at hreached
    rcases Parse.blames hlegal hfault with hfinal | ⟨t, kinds, reason, -, rfl⟩
    · simp [hend] at hfinal
    · simp at hreached
  · exact hsame.trans hcut

/-- A number where a call should go on is refused in a function, also if a string that is not closed
stands in a later line. -/
theorem fault_before_end_is_final_call :
    (TokenStream.ofText (Text.ofString "fn f(x):\n  return g(x 1")).halt? = none ∧
      (Parse.ofText (Text.ofString "fn f(x):\n  return g(x 1")).outcome =
        .error (.fault (.unexpected .integer [.rightParen] "" ⟨1, 13⟩)) ∧
      (Parse.ofText (Text.ofString "fn f(x):\n  return g(x 1" ++ lineFeed ::
        Text.ofString "\"open")).outcome =
          .error (.fault (.unexpected .integer [.rightParen] "" ⟨1, 13⟩)) := by
  have htokens : (TokenStream.ofText (Text.ofString "fn f(x):\n  return g(x 1")).halt? = none := by
    decide +kernel
  have hfault : (Parse.ofText (Text.ofString "fn f(x):\n  return g(x 1")).outcome =
      .error (.fault (.unexpected .integer [.rightParen] "" ⟨1, 13⟩)) :=
    Parse.outcome_eq_error_iff_stop?.mpr (by decide +kernel)
  exact ⟨htokens, hfault, fault_before_end_is_final htokens hfault (by simp) _⟩

end Offside
