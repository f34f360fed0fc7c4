import Offside.Proofs.Tree.Comparison
import Offside.Proofs.Tree.Words

/-!
# Where the parts of a tree stand

A tree does not say where its parts end, so the layout of a source is stated about derivations of
its tree: which tokens are which expression, statement, block and arm. `Spans` has one rule for each
production of the grammar, and every token between the two places of a judgement is accounted for.

The columns enter in two rules only. A run of statements (`Spans.Run`) and a run of arms
(`Spans.Arms`) go on as long as the next token that is no line break starts one more member of the
run, and each member starts a line. A block is such a run in the column of its first token, and the
statements of a source are one without a column.

A piece of the grammar traces a relation between places if every result that it gives, with the
place where it began and the place where it ended, has that relation (`Grammar.Traces`).
-/

set_option autoImplicit false

namespace Offside

/-- A place in a list of tokens: the tokens before it, the nearest one first, and those after it. -/
structure Place where
  before : List Token
  after : List Token

namespace Place

def next? (p : Place) : Option Token := p.after.head?

/-- Whether the token directly before the place is a line break. -/
def afterBreak (p : Place) : Bool := p.before.head?.any Token.isBreak

/-- The place is the start of the source or comes directly after a line break. -/
def StartsLine (p : Place) : Prop := p.before = [] ∨ p.afterBreak = true

/-- Only the end of the source is to come. -/
def AtEnd (p : Place) : Prop := ∃ t ∈ p.next?, t.kind = .endOfInput

/-- The second place comes after the given token, which comes after the first place. -/
structure Takes (p : Place) (t : Token) (q : Place) : Prop where
  after : p.after = t :: q.after
  before : q.before = t :: p.before

/-- There is one token of the given kind between the places. -/
def TakesKind (p : Place) (k : Kind) (q : Place) : Prop := ∃ t, t.kind = k ∧ p.Takes t q

/-- The place in front of the next token that is no line break. -/
def pastBreaks (p : Place) : Place :=
  ⟨(p.after.takeWhile Token.isBreak).reverse ++ p.before, p.after.dropWhile Token.isBreak⟩

/-- A line ends between the places: with a line break, or with one that was taken before, or with
the source. -/
def EndsLine (p q : Place) : Prop :=
  q = p ∧ (p.afterBreak = true ∨ p.AtEnd) ∨ p.TakesKind .newline q

/-- The colon and the line breaks in front of a block or of arms stand between the places. -/
def Opens (p q : Place) : Prop :=
  ∃ p₁ p₂, p.TakesKind .colon p₁ ∧ p₁.TakesKind .newline p₂ ∧ q = p₂.pastBreaks

end Place

/-- The token starts one more statement of a run: it is not the end of the source, and it stands in
the column of the run, if that has one. -/
def Token.Continues (column : Option Int) (t : Token) : Prop :=
  t.kind ≠ .endOfInput ∧ ∀ c ∈ column, t.pos.column = c

/-- The token starts one more arm in the given column. -/
def Token.IsBarIn (column : Int) (t : Token) : Prop := t.kind = .bar ∧ t.pos.column = column

/-- The kind of the one token that such a node is made of. -/
def Node.leafKind? : Node → Option Kind
  | .reference .. => some .identifier
  | .integer .. => some .integer
  | .float .. => some .float
  | .string .. => some .string
  | .boolean .. => some .boolean
  | _ => none

namespace Spans

mutual

/-- The tokens between the places are an expression. An operator continues the line of its left
operand. -/
inductive Expression : Place → Node → Place → Prop
  | leaf {p q : Place} {tok : Token} {n : Node} (hkind : n.leafKind? = some tok.kind)
      (hnode : n.tok? = some tok) (htok : p.Takes tok q) : Expression p n q
  | parentheses {p p₁ p₂ q : Place} {n : Node} (hleft : p.TakesKind .leftParen p₁)
      (hinner : Expression p₁ n p₂) (hright : p₂.TakesKind .rightParen q) : Expression p n q
  | unary {p p₁ q : Place} {tok : Token} {n : Node} (hkind : tok.kind ∈ Grammar.unaryOperators)
      (htok : p.Takes tok p₁) (hoperand : Expression p₁ n q) :
      Expression p (.unary tok tok.kind n) q
  | binary {p p₁ p₂ q : Place} {tok : Token} {left right : Node}
      (hkind : tok.kind ∈ Grammar.binaryOperators) (hleft : Expression p left p₁)
      (hline : p₁.afterBreak = false) (htok : p₁.Takes tok p₂) (hright : Expression p₂ right q) :
      Expression p (.binary tok tok.kind left right) q
  | call {p p₁ p₂ p₃ q : Place} {tok : Token} {args : List Node} (hkind : tok.kind = .identifier)
      (htok : p.Takes tok p₁) (hopen : p₁.TakesKind .leftParen p₂)
      (hargs : Arguments true p₂ args p₃) (hclose : p₃.TakesKind .rightParen q) :
      Expression p (.call tok tok.value args) q
  | select {p p₁ p₂ p₃ q : Place} {tok : Token} {subject : Node} {arms : Offside.Arms}
      {column : Int} (hkind : tok.kind = .matchWord) (htok : p.Takes tok p₁)
      (hsubject : Expression p₁ subject p₂) (hopens : p₂.Opens p₃) (hsome : arms ≠ .done)
      (harms : Arms column p₃ arms q) : Expression p (.select tok subject arms) q

/-- The tokens between the places are arguments, the first one of which has no comma before it if it
is the first one of all. -/
inductive Arguments : Bool → Place → List Node → Place → Prop
  | none {first : Bool} {p : Place} : Arguments first p [] p
  | first {p p₁ q : Place} {arg : Node} {rest : List Node} (harg : Expression p arg p₁)
      (hrest : Arguments false p₁ rest q) : Arguments true p (arg :: rest) q
  | more {p p₁ p₂ q : Place} {arg : Node} {rest : List Node} (hcomma : p.TakesKind .comma p₁)
      (harg : Expression p₁ arg p₂) (hrest : Arguments false p₂ rest q) :
      Arguments false p (arg :: rest) q

/-- The tokens between the places are all arms in the column: behind the last one and the line
breaks after it stands no bar in the column. -/
inductive Arms : Int → Place → Offside.Arms → Place → Prop
  | done {column : Int} {p : Place}
      (hmaximal : ∃ t ∈ p.pastBreaks.next?, ¬ t.IsBarIn column) : Arms column p .done p.pastBreaks
  | pattern {column : Int} {p p₁ p₂ p₃ p₄ p₅ q : Place} {tok : Token} {pattern result : Node}
      {rest : Offside.Arms} (hline : p.pastBreaks.StartsLine) (hbar : tok.IsBarIn column)
      (htok : p.pastBreaks.Takes tok p₁) (hpattern : Expression p₁ pattern p₂)
      (harrow : p₂.TakesKind .arrow p₃) (hresult : Expression p₃ result p₄)
      (hend : p₄.EndsLine p₅) (hrest : Arms column p₅ rest q) :
      Arms column p (.pattern tok pattern result rest) q
  | wildcard {column : Int} {p p₁ p₂ p₃ p₄ p₅ q : Place} {tok : Token} {result : Node}
      {rest : Offside.Arms} (hline : p.pastBreaks.StartsLine) (hbar : tok.IsBarIn column)
      (htok : p.pastBreaks.Takes tok p₁) (hstar : p₁.TakesKind .times p₂)
      (harrow : p₂.TakesKind .arrow p₃) (hresult : Expression p₃ result p₄)
      (hend : p₄.EndsLine p₅) (hrest : Arms column p₅ rest q) :
      Arms column p (.wildcard tok result rest) q

end

/-- The tokens between the places are names, the first one of which has no comma before it if it is
the first one of all. -/
inductive Params : Bool → Place → List String → Place → Prop
  | none {first : Bool} {p : Place} : Params first p [] p
  | first {p p₁ q : Place} {param : Token} {rest : List String} (hkind : param.kind = .identifier)
      (hparam : p.Takes param p₁) (hrest : Params false p₁ rest q) :
      Params true p (param.value :: rest) q
  | more {p p₁ p₂ q : Place} {param : Token} {rest : List String} (hcomma : p.TakesKind .comma p₁)
      (hkind : param.kind = .identifier) (hparam : p₁.Takes param p₂)
      (hrest : Params false p₂ rest q) : Params false p (param.value :: rest) q

/-- The tokens between the places are a statement without a block and without the end of its
line. -/
inductive Line : Place → Node → Place → Prop
  | declared {p p₁ q : Place} {tok name : Token} (hkind : tok.kind = .letWord)
      (htok : p.Takes tok p₁) (hname : name.kind = .identifier) (htaken : p₁.Takes name q) :
      Line p (.declaration tok name.value (.nil name)) q
  | initialised {p p₁ p₂ p₃ q : Place} {tok name : Token} {value : Node}
      (hkind : tok.kind = .letWord) (htok : p.Takes tok p₁) (hname : name.kind = .identifier)
      (htaken : p₁.Takes name p₂) (hsign : p₂.TakesKind .assign p₃)
      (hvalue : Expression p₃ value q) : Line p (.declaration tok name.value value) q
  | returned {p q : Place} {tok : Token} (hkind : tok.kind = .returnWord) (htok : p.Takes tok q) :
      Line p (.ret tok (.nil tok)) q
  | returnedValue {p p₁ q : Place} {tok : Token} {value : Node} (hkind : tok.kind = .returnWord)
      (htok : p.Takes tok p₁) (hvalue : Expression p₁ value q) : Line p (.ret tok value) q
  | assignment {p p₁ p₂ q : Place} {tok : Token} {name : String} {value : Node}
      (htarget : Expression p (.reference tok name) p₁) (hline : p₁.afterBreak = false)
      (hsign : p₁.TakesKind .assign p₂) (hvalue : Expression p₂ value q) :
      Line p (.assignment tok name value) q
  | expression {p q : Place} {n : Node} (hn : Expression p n q) : Line p n q

mutual

/-- The tokens between the places are a statement with the end of its last line. -/
inductive Statement : Place → Node → Place → Prop
  | line {p p₁ q : Place} {n : Node} (hline : Line p n p₁) (hend : p₁.EndsLine q) :
      Statement p n q
  | definition {p p₁ p₂ p₃ p₄ p₅ q : Place} {tok name : Token} {names : List String}
      {bodyTok : Token} {body : List Node} (hkind : tok.kind = .fnWord) (htok : p.Takes tok p₁)
      (hname : name.kind = .identifier) (htaken : p₁.Takes name p₂)
      (hopen : p₂.TakesKind .leftParen p₃) (hparams : Params true p₃ names p₄)
      (hclose : p₄.TakesKind .rightParen p₅) (hbody : Block p₅ bodyTok body q) :
      Statement p (.definition tok name.value names bodyTok body) q
  | conditional {p p₁ p₂ p₃ q : Place} {tok : Token} {condition : Node} {bodyTok : Token}
      {body : List Node} {rest : Offside.Branches} (hkind : tok.kind = .ifWord)
      (htok : p.Takes tok p₁) (hcondition : Expression p₁ condition p₂)
      (hbody : Block p₂ bodyTok body p₃) (hrest : Branches p₃ rest q) :
      Statement p (.conditional tok (.guarded condition bodyTok body rest)) q
  | loop {p p₁ p₂ q : Place} {tok : Token} {condition : Node} {bodyTok : Token}
      {body : List Node} (hkind : tok.kind = .whileWord) (htok : p.Takes tok p₁)
      (hcondition : Expression p₁ condition p₂) (hbody : Block p₂ bodyTok body q) :
      Statement p (.loop tok condition bodyTok body) q

/-- The tokens between the places are a block with the given first token: all statements that
follow in the column of that token, and at least one. -/
inductive Block : Place → Token → List Node → Place → Prop
  | mk {p p₁ q : Place} {tok : Token} {body : List Node} (hopens : p.Opens p₁)
      (htok : tok ∈ p₁.next?) (hsome : body ≠ []) (hrun : Run (some tok.pos.column) p₁ body q) :
      Block p tok body q

/-- The tokens between the places are all statements of a run: the token behind the last one and the
line breaks after it starts none. -/
inductive Run : Option Int → Place → List Node → Place → Prop
  | done {column : Option Int} {p : Place}
      (hmaximal : ∃ t ∈ p.pastBreaks.next?, ¬ t.Continues column) : Run column p [] p.pastBreaks
  | more {column : Option Int} {p p₁ q : Place} {n : Node} {rest : List Node}
      (hline : p.pastBreaks.StartsLine) (hfirst : ∃ t ∈ p.pastBreaks.next?, t.Continues column)
      (hn : Statement p.pastBreaks n p₁) (hrest : Run column p₁ rest q) :
      Run column p (n :: rest) q

/-- The tokens between the places are the branches after the first body of a conditional. -/
inductive Branches : Place → Offside.Branches → Place → Prop
  | done {p : Place} : Branches p .done p
  | otherwise {p p₁ q : Place} {bodyTok : Token} {body : List Node}
      (hword : p.TakesKind .elseWord p₁) (hbody : Block p₁ bodyTok body q) :
      Branches p (.otherwise bodyTok body) q
  | guarded {p p₁ p₂ p₃ q : Place} {condition : Node} {bodyTok : Token} {body : List Node}
      {rest : Offside.Branches} (hword : p.TakesKind .elifWord p₁)
      (hcondition : Expression p₁ condition p₂) (hbody : Block p₂ bodyTok body p₃)
      (hrest : Branches p₃ rest q) : Branches p (.guarded condition bodyTok body rest) q

end

end Spans

/-! ## Places -/

namespace Place

variable {p q : Place} {t : Token}

/-- To take a token of a kind is to take that kind. -/
theorem Takes.ofKind {k : Kind} (h : p.Takes t q) (hkind : t.kind ∈ [k]) : p.TakesKind k q :=
  ⟨t, List.mem_singleton.mp hkind, h⟩

/-- Behind a line break a line starts. -/
theorem TakesKind.startsLine (h : p.TakesKind .newline q) : q.StartsLine := by
  obtain ⟨t, hkind, htakes⟩ := h
  right
  unfold afterBreak
  rw [htakes.before]
  simp [Token.isBreak, hkind]

/-- At a settled place no line is unfinished. -/
def Settled (p : Place) : Prop := p.StartsLine ∨ p.AtEnd

/-- A settled place that is not at the end starts a line. -/
theorem Settled.startsLine (h : p.Settled) (ht : t ∈ p.next?) (hend : t.kind ≠ .endOfInput) :
    p.StartsLine := by
  rcases h with hline | ⟨u, hu, hkind⟩
  · exact hline
  · obtain rfl : t = u := Option.mem_unique ht hu
    exact absurd hkind hend

/-- Where a line is ended the place is settled. -/
theorem EndsLine.settled (h : p.EndsLine q) : q.Settled := by
  rcases h with ⟨rfl, hbreak | hend⟩ | hnewline
  · exact .inl (.inr hbreak)
  · exact .inr hend
  · exact .inl hnewline.startsLine

/-- Where something other than a line break is next, there is none to get past. -/
theorem pastBreaks_eq_self (ht : t ∈ p.next?) (hbreak : t.isBreak = false) : p.pastBreaks = p := by
  obtain ⟨before, after⟩ := p
  unfold pastBreaks
  unfold next? at ht
  cases after with
  | nil => simp at ht
  | cons u rest =>
    obtain rfl : u = t := by simpa using ht
    simp [hbreak]

/-- Past the line breaks no line break is next. -/
theorem pastBreaks_not_break (ht : t ∈ p.pastBreaks.next?) : t.isBreak = false := by
  have hhead := List.head?_dropWhile_not Token.isBreak p.after
  have hnext : (p.after.dropWhile Token.isBreak).head? = some t := ht
  rw [hnext] at hhead
  simpa using hhead

/-- A place past the line breaks is behind one if there was one to get past, or before. -/
theorem afterBreak_pastBreaks :
    p.pastBreaks.afterBreak = (p.afterBreak || p.next?.any Token.isBreak) := by
  unfold afterBreak pastBreaks next?
  cases hafter : p.after with
  | nil => simp
  | cons t rest =>
    cases hbreak : t.isBreak with
    | false => simp [hbreak]
    | true =>
      -- the nearest token is the last of the line breaks
      have hall : ∀ u ∈ (t :: rest).takeWhile Token.isBreak, u.isBreak = true := by
        intro u hu
        exact List.all_eq_true.mp List.all_takeWhile u hu
      rw [List.takeWhile_cons_of_pos hbreak] at hall ⊢
      have hlast := hall _ (List.getLast_mem (List.cons_ne_nil t _))
      rw [List.head?_append, List.head?_reverse,
        List.getLast?_eq_some_getLast (List.cons_ne_nil t _)]
      simp only [Option.some_or, Option.any_some, hlast, List.head?_cons, hbreak, Bool.or_true]

/-- A place that starts a line still does past the line breaks. -/
theorem startsLine_pastBreaks (h : p.StartsLine) : p.pastBreaks.StartsLine := by
  rcases h with hstart | hline
  · cases hnext : p.next? with
    | none =>
      have hafter : p.after = [] := List.head?_eq_none_iff.mp hnext
      left
      simp [pastBreaks, hafter, hstart]
    | some t =>
      cases hbreak : t.isBreak with
      | false =>
        rw [pastBreaks_eq_self hnext hbreak]
        exact .inl hstart
      | true =>
        right
        simp [afterBreak_pastBreaks, hnext, hbreak]
  · right
    simp [afterBreak_pastBreaks, hline]

/-- A settled place still is past the line breaks. -/
theorem Settled.pastBreaks (h : p.Settled) : p.pastBreaks.Settled := by
  rcases h with hline | ⟨t, ht, hend⟩
  · exact .inl (startsLine_pastBreaks hline)
  · right
    rw [pastBreaks_eq_self ht (by simp [Token.isBreak, hend])]
    exact ⟨t, ht, hend⟩

/-- Arms and blocks are opened at the start of a line. -/
theorem Opens.startsLine (h : p.Opens q) : q.StartsLine := by
  obtain ⟨p₁, p₂, -, hnewline, rfl⟩ := h
  exact startsLine_pastBreaks hnewline.startsLine

/-- An opening has taken all line breaks, so what comes next starts the run behind it. -/
theorem Opens.first_eq {u : Token} (h : p.Opens q) (ht : t ∈ q.next?)
    (hu : u ∈ q.pastBreaks.next?) : u = t := by
  obtain ⟨p₁, p₂, -, -, rfl⟩ := h
  rw [pastBreaks_eq_self ht (pastBreaks_not_break ht)] at hu
  exact Option.mem_unique hu ht

end Place

namespace Spans

variable {p p₁ q : Place} {t : Token}

/-- Behind an opening, the first bar is one of an arm. -/
theorem Arms.ne_done {column : Int} {arms : Offside.Arms} (h : Arms column p₁ arms q)
    (hopens : p.Opens p₁) (ht : t ∈ p₁.next?) (hbar : t.IsBarIn column) : arms ≠ .done := by
  rintro rfl
  cases h with
  | done hmaximal =>
    obtain ⟨u, hu, hnot⟩ := hmaximal
    obtain rfl := hopens.first_eq ht hu
    exact hnot hbar

/-- Behind an opening, the first token starts a statement. -/
theorem Run.ne_nil {column : Option Int} {body : List Node} (h : Run column p₁ body q)
    (hopens : p.Opens p₁) (ht : t ∈ p₁.next?) (hfirst : t.Continues column) : body ≠ [] := by
  rintro rfl
  cases h with
  | done hmaximal =>
    obtain ⟨u, hu, hnot⟩ := hmaximal
    obtain rfl := hopens.first_eq ht hu
    exact hnot hfirst

end Spans

/-! ## Readings at places -/

/-- The reading is at the place, in a source with the given end. -/
structure Reading.IsAt (r : Reading) (eof : Token) (p : Place) : Prop where
  legal : r.Legal
  after : p.after = r.front ++ [eof]
  final : r.final = .ok eof
  line : r.afterBreak = p.afterBreak

namespace Reading.IsAt

variable {r : Reading} {eof t : Token} {p : Place}

/-- A reading at a place has the same token next. -/
theorem next?_eq (h : r.IsAt eof p) : r.next? = p.next? := by
  unfold Reading.next? Place.next?
  rw [h.after, h.final]
  cases r.front <;> rfl

/-- A reading that takes a token at a place goes on at the place behind it. -/
theorem takes (h : r.IsAt eof p) {r' : Reading} (htakes : r.Takes t r')
    (hline : r'.afterBreak = t.isBreak) : ∃ q, r'.IsAt eof q ∧ p.Takes t q := by
  refine ⟨⟨t :: p.before, r'.front ++ [eof]⟩, ?_, ?_, rfl⟩
  · exact ⟨htakes.advances.legal h.legal, rfl, htakes.final.trans h.final, hline⟩
  · rw [h.after, htakes.front]
    rfl

end Reading.IsAt

namespace Grammar

open Reading

/-- Whatever result the piece gives, it has the relation to the place where the piece ends. -/
def Traces {α : Type} (eof : Token) (g : Grammar α) (r : Reading) (p : Place)
    (D : α → Place → Prop) : Prop :=
  r.IsAt eof p → Ensures (fun _ => True) g r fun a r' => ∃ q, r'.IsAt eof q ∧ D a q

section Rules

variable {α β : Type} {eof : Token} {r : Reading} {p : Place}

/-- A result stays at its place. -/
theorem traces_pure {a : α} {D : α → Place → Prop} (h : D a p) :
    Traces eof (pure a : Grammar α) r p D := by
  intro hr
  exact ensures_pure ⟨p, hr, h⟩

/-- A stop traces anything. -/
theorem traces_throw {e : Halt} {D : α → Place → Prop} :
    Traces eof (throw e : Grammar α) r p D := by
  intro _
  exact ensures_throw trivial

/-- Sequences trace what their parts trace one after the other. -/
theorem traces_bind {g : Grammar α} {f : α → Grammar β} {C : α → Place → Prop}
    {D : β → Place → Prop} (hg : Traces eof g r p C)
    (hf : ∀ a r' q, C a q → Traces eof (f a) r' q D) : Traces eof (g >>= f) r p D := by
  intro hr
  apply ensures_bind (hg hr)
  rintro a r' ⟨q, hr', ha⟩
  exact hf a r' q ha hr'

/-- What traces a stronger relation traces a weaker one. -/
theorem traces_mono {g : Grammar α} {C D : α → Place → Prop} (hg : Traces eof g r p C)
    (h : ∀ a q, C a q → D a q) : Traces eof g r p D := by
  intro hr
  apply ensures_mono (hg hr)
  rintro a r' ⟨q, hr', ha⟩
  exact ⟨q, hr', h a q ha⟩

/-- What two facts ensure of a piece, they ensure together. -/
theorem ensures_and {E : Halt → Prop} {g : Grammar α} {P Q : α → Reading → Prop}
    (hP : Ensures E g r P) (hQ : Ensures E g r Q) : Ensures E g r fun a r' => P a r' ∧ Q a r' := by
  unfold Ensures at hP hQ ⊢
  cases hg : g r with
  | ok a r' =>
    rw [hg] at hP hQ
    exact ⟨hP, hQ⟩
  | error e r' =>
    rw [hg] at hP
    exact hP

end Rules

section Tokens

variable {β : Type} {eof : Token} {r : Reading} {p : Place} {D : β → Place → Prop}
  {kinds : List Kind}

/-- A look at the next token stays at its place. -/
theorem traces_peek {f : Token → Grammar β} (hf : ∀ t ∈ p.next?, Traces eof (f t) r p D) :
    Traces eof (peek >>= f) r p D := by
  intro hr
  apply ensures_bind (ensures_peek hr.legal).weaken
  rintro t r' ⟨rfl, ht⟩
  rw [hr.next?_eq] at ht
  exact hf t ht hr

/-- A choice by the kind of the next token stays at its place. -/
theorem traces_choice {f : Bool → Grammar β}
    (hf : ∀ b, (∃ t ∈ p.next?, b = t.isOneOf kinds) → Traces eof (f b) r p D) :
    Traces eof (peekIs kinds >>= f) r p D := by
  intro hr
  apply ensures_bind (ensures_peekIs hr.legal kinds).weaken
  rintro b r' ⟨rfl, t, ht, hb⟩
  rw [hr.next?_eq] at ht
  exact hf b ⟨t, ht, hb⟩ hr

/-- A token that is taken tells whether a line has started. -/
theorem ensures_next_line :
    Ensures (fun _ => True) next r fun t r' => r'.afterBreak = t.isBreak := by
  unfold Ensures next
  cases hfront : r.front with
  | cons t rest => rfl
  | nil =>
    cases hfinal : r.final with
    | ok t => rfl
    | error e => trivial

/-- To take the next token leads to the place behind it. -/
theorem traces_next {f : Token → Grammar β} {t : Token} (ht : t ∈ p.next?)
    (hend : t.kind ≠ .endOfInput) (hf : ∀ r' q, p.Takes t q → Traces eof (f t) r' q D) :
    Traces eof (next >>= f) r p D := by
  intro hr
  have hnext : r.next? = some t := hr.next?_eq.trans ht
  apply ensures_bind (ensures_and (ensures_next hr.legal hnext hend).weaken ensures_next_line)
  rintro u r' ⟨⟨rfl, htakes⟩, hline⟩
  obtain ⟨q, hr', hq⟩ := hr.takes htakes hline
  exact hf r' q hq hr'

/-- A choice whose first branch takes the token that was looked at. -/
theorem traces_if_peekIs {f : Token → Grammar β} {g : Grammar β} (hend : Kind.endOfInput ∉ kinds)
    (hf : ∀ t r' q, t.kind ∈ kinds → p.Takes t q → Traces eof (f t) r' q D)
    (hg : Traces eof g r p D) :
    Traces eof (peekIs kinds >>= fun b => if b = true then next >>= f else g) r p D := by
  apply traces_choice
  rintro b ⟨t, ht, rfl⟩
  split
  · rename_i hone
    have hkind := isOneOf_iff.mp hone
    exact traces_next ht (fun h => hend (h ▸ hkind)) fun r' q htakes => hf t r' q hkind htakes
  · exact hg

/-- A choice whose first branch takes the token that continues the line. -/
theorem traces_if_continuesWith {f : Token → Grammar β} {g : Grammar β}
    (hend : Kind.endOfInput ∉ kinds)
    (hf : ∀ t r' q, p.afterBreak = false → t.kind ∈ kinds → p.Takes t q →
      Traces eof (f t) r' q D)
    (hg : Traces eof g r p D) :
    Traces eof (continuesWith kinds >>= fun b => if b = true then next >>= f else g) r p D := by
  intro hr
  show Ensures _ ((if r.afterBreak then pure false else peekIs kinds) >>= _) r _
  split
  · exact hg hr
  · rename_i hline
    have hfresh : p.afterBreak = false := by
      rw [← hr.line]
      simpa using hline
    exact traces_if_peekIs hend (fun t r' q hkind htakes => hf t r' q hfresh hkind htakes) hg hr

/-- To take a token of some kinds leads to the place behind it. -/
theorem traces_expect (hend : Kind.endOfInput ∉ kinds) :
    Traces eof (expect kinds) r p fun t q => t.kind ∈ kinds ∧ p.Takes t q := by
  intro hr
  have hbreak : Ensures (fun _ => True) (expect kinds) r fun t r' =>
      r'.afterBreak = t.isBreak := by
    apply ensures_bind ensures_next_line
    intro t r' hline
    split
    · exact ensures_pure hline
    · exact ensures_throw trivial
  apply ensures_mono (ensures_and (ensures_expect hr.legal hend).weaken hbreak)
  rintro t r' ⟨⟨hkind, htakes⟩, hline⟩
  obtain ⟨q, hr', hq⟩ := hr.takes htakes hline
  exact ⟨q, hr', hkind, hq⟩

/-- To take a token of one kind leads to the place behind it. -/
theorem traces_mark {k : Kind} (hend : k ≠ .endOfInput) :
    Traces eof (expect [k]) r p fun t q => t.kind = k ∧ p.Takes t q := by
  apply traces_mono (traces_expect (by simpa using hend.symm))
  rintro t q ⟨hkind, htakes⟩
  exact ⟨List.mem_singleton.mp hkind, htakes⟩

/-- The closing parenthesis behind what was read before. -/
theorem traces_close (b : β) :
    Traces eof (do
      let _ ← expect [.rightParen]
      pure b) r p fun b' q => b' = b ∧ p.TakesKind .rightParen q := by
  apply traces_bind (traces_mark (by decide))
  rintro paren r₁ p₁ hparen
  exact traces_pure ⟨rfl, paren, hparen⟩

/-- To skip line breaks leads to the place past them. -/
theorem traces_skipBreaks : Traces eof skipBreaks r p fun _ q => q = p.pastBreaks := by
  intro hr
  have heof : eof.isBreak = false := by
    have hfinal := hr.legal.final
    simp only [hr.final] at hfinal
    simp [Token.isBreak, hfinal]
  have hpast : r.pastBreaks.IsAt eof p.pastBreaks := by
    have hleads : r.Leads r.pastBreaks := ⟨List.dropWhile_suffix _, rfl⟩
    refine ⟨hleads.legal hr.legal, ?_, hr.final, ?_⟩
    · show p.after.dropWhile Token.isBreak = r.front.dropWhile Token.isBreak ++ [eof]
      rw [hr.after, List.dropWhile_append]
      split <;> simp_all
    · show (r.afterBreak || r.front.head?.any Token.isBreak) = _
      rw [Place.afterBreak_pastBreaks, hr.line, Place.next?, hr.after]
      cases r.front <;> simp [heof]
  unfold skipBreaks
  refine ensures_bind (P := fun _ r' => r' = r.pastBreaks) rfl ?_
  rintro - r' rfl
  refine traces_peek (p := p.pastBreaks) ?_ hpast
  intro t ht
  exact traces_pure rfl

/-- To end a line leads to where the line is ended. -/
theorem traces_endLine : Traces eof endLine r p fun _ q => p.EndsLine q := by
  intro hr
  show Ensures _ (if r.afterBreak then pure () else _) r _
  split
  · rename_i hline
    exact ensures_pure ⟨p, hr, .inl ⟨rfl, .inl (hr.line ▸ hline)⟩⟩
  · refine traces_choice (p := p) ?_ hr
    rintro b ⟨t, ht, rfl⟩
    split
    · rename_i hend
      rw [isOneOf_iff, List.mem_singleton] at hend
      exact traces_pure (.inl ⟨rfl, .inr ⟨t, ht, hend⟩⟩)
    · apply traces_bind (traces_mark (by decide))
      intro newline r₁ p₁ hnewline
      exact traces_pure (.inr ⟨newline, hnewline⟩)

/-- To open arms or a block leads to where these start. -/
theorem traces_opening : Traces eof opening r p fun _ q => p.Opens q := by
  apply traces_bind (traces_mark (by decide))
  intro colon r₁ p₁ hcolon
  apply traces_bind (traces_mark (by decide))
  intro newline r₂ p₂ hnewline
  apply traces_mono traces_skipBreaks
  intro _ q hq
  exact ⟨p₁, p₂, ⟨colon, hcolon⟩, ⟨newline, hnewline⟩, hq⟩

end Tokens

end Grammar

end Offside
