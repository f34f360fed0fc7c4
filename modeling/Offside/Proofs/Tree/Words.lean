import Offside.Proofs.Token.Spelled
import Offside.Proofs.Tree.ExpressionSound

/-!
# The words of trees and of sources

A word is a token without its place. A tree yields the words of its productions in order; line
breaks, parentheses and the end of the source are no words of a tree, and a value that is left out
yields nothing. A piece of the grammar accounts for words if whatever it gives has a given relation
to the words that it took (`Accounts`). The rules below compose such facts along sequences and
choices.
-/

set_option autoImplicit false

namespace Offside

/-! ## The words of trees and of tokens -/

/-- A token without its place. -/
structure Word where
  kind : Kind
  value : String
  deriving DecidableEq, Repr

namespace Word

/-- The word of a kind whose tokens are all spelled the same. -/
def fixed (k : Kind) : Word := ⟨k, k.spelling⟩

def name (s : String) : Word := ⟨.identifier, s⟩

/-- Names with commas between them, the first one after the given words. -/
def names : (lead : List Word) → List String → List Word
  | _, [] => []
  | lead, n :: rest => lead ++ .name n :: names [.fixed .comma] rest

end Word

mutual

/-- The words of a tree, as its productions spell them. -/
def Node.yield : Node → List Word
  | .missing | .nil _ => []
  | .block _ statements => Node.allYield statements
  | .declaration _ name value =>
      .fixed .letWord :: .name name ::
        if value.isNil then [] else .fixed .assign :: value.yield
  | .assignment _ name value => .name name :: .fixed .assign :: value.yield
  | .reference _ name => [.name name]
  | .integer tok _ => [⟨.integer, tok.value⟩]
  | .float tok _ => [⟨.float, tok.value⟩]
  | .string _ value => [⟨.string, value.toString?.getD ""⟩]
  | .boolean _ value => [⟨.boolean, if value then "true" else "false"⟩]
  | .unary _ op operand => .fixed op :: operand.yield
  | .binary _ op left right => left.yield ++ .fixed op :: right.yield
  | .definition _ name params _ body =>
      .fixed .fnWord :: .name name :: Word.names [] params ++ .fixed .colon :: Node.allYield body
  | .call _ name args => .name name :: Node.listYield [] args
  | .conditional _ branches => branches.yield .ifWord
  | .loop _ condition _ body =>
      .fixed .whileWord :: condition.yield ++ .fixed .colon :: Node.allYield body
  | .ret _ value => .fixed .returnWord :: value.yield
  | .select _ subject arms => .fixed .matchWord :: subject.yield ++ .fixed .colon :: arms.yield

/-- The words of statements one after the other. -/
def Node.allYield : List Node → List Word
  | [] => []
  | n :: rest => n.yield ++ Node.allYield rest

/-- The words of arguments with commas between them, the first one after the given words. -/
def Node.listYield : (lead : List Word) → List Node → List Word
  | _, [] => []
  | lead, n :: rest => lead ++ (n.yield ++ Node.listYield [.fixed .comma] rest)

/-- The words of branches, the first condition after the given reserved word. -/
def Branches.yield : (word : Kind) → Branches → List Word
  | _, .done => []
  | _, .otherwise _ body => .fixed .elseWord :: .fixed .colon :: Node.allYield body
  | word, .guarded condition _ body rest =>
      .fixed word :: condition.yield ++
        .fixed .colon :: (Node.allYield body ++ rest.yield .elifWord)

/-- The words of arms, each with a bar before it. -/
def Arms.yield : Arms → List Word
  | .done => []
  | .pattern _ pattern result rest =>
      .fixed .bar :: pattern.yield ++ .fixed .arrow :: (result.yield ++ rest.yield)
  | .wildcard _ result rest =>
      .fixed .bar :: .fixed .times :: .fixed .arrow :: (result.yield ++ rest.yield)

end

/-- Whether tokens of a kind are no words of a tree. -/
def Kind.isMark (k : Kind) : Bool :=
  [Kind.newline, .leftParen, .rightParen, .endOfInput].contains k

namespace Token

def word (t : Token) : Word := ⟨t.kind, t.value⟩

/-- What a token adds to the words of a tree. -/
def words (t : Token) : List Word := if t.kind.isMark then [] else [t.word]

/-- A mark is no word of a tree. -/
theorem words_of_mark {t : Token} (h : t.kind.isMark = true) : t.words = [] := by
  unfold words
  rw [if_pos h]

/-- Any other token is a word. -/
theorem words_of_not_mark {t : Token} (h : t.kind.isMark = false) : t.words = [t.word] := by
  unfold words
  rw [h]
  rfl

/-- A token of a kind with a fixed spelling is the word of its kind. -/
theorem Spelled.words_eq {t : Token} (h : t.Spelled) {k : Kind} (hkind : t.kind = k)
    (hfixed : k ∈ Kind.reserved ++ Kind.signs) (hmark : k.isMark = false) :
    t.words = [.fixed k] := by
  subst hkind
  rw [words_of_not_mark hmark, word, h.fixed hfixed]
  rfl

/-- An operator is the word of its kind. -/
theorem Spelled.words_of_operator {t : Token} (h : t.Spelled)
    (hkind : t.kind ∈ Grammar.unaryOperators ++ Grammar.binaryOperators) :
    t.words = [.fixed t.kind] := by
  have hoperators : ∀ k ∈ Grammar.unaryOperators ++ Grammar.binaryOperators,
      k ∈ Kind.reserved ++ Kind.signs ∧ k.isMark = false := by decide
  obtain ⟨hfixed, hmark⟩ := hoperators t.kind hkind
  exact h.words_eq rfl hfixed hmark

/-- The words of tokens are those that are no marks. -/
theorem flatMap_words (ts : List Token) :
    ts.flatMap words = (ts.filter fun t => !t.kind.isMark).map word := by
  induction ts with
  | nil => rfl
  | cons t rest ih =>
    cases h : t.kind.isMark with
    | true => simp [words_of_mark h, h, ih]
    | false => simp [words_of_not_mark h, h, ih]

end Token

/-! ## The words that a reading takes -/

namespace Reading

/-- The words to come. -/
def words (r : Reading) : List Word := r.front.flatMap Token.words

/-- The tokens to come are legal, and spelled as their kinds prescribe. -/
structure Spelled (r : Reading) : Prop where
  legal : r.Legal
  spelled : ∀ t ∈ r.front, t.Spelled

/-- The second reading is the first one after the given words. -/
structure Spends (r : Reading) (ws : List Word) (r' : Reading) : Prop extends Leads r r' where
  words : r.words = ws ++ r'.words

variable {r r' r'' : Reading} {ws ws' : List Word} {t : Token}

/-- What a reading with proper spelling leads to has proper spelling. -/
theorem Leads.spelled (h : Leads r r') (hr : r.Spelled) : r'.Spelled :=
  ⟨h.legal hr.legal, fun t ht => hr.spelled t (h.front.mem ht)⟩

/-- No words are spent where nothing is taken. -/
theorem Spends.refl (r : Reading) : Spends r [] r := ⟨.refl r, rfl⟩

/-- Words that are spent one after the other are spent together. -/
theorem Spends.trans (h₁ : Spends r ws r') (h₂ : Spends r' ws' r'') : Spends r (ws ++ ws') r'' where
  toLeads := h₁.toLeads.trans h₂.toLeads
  words := by rw [h₁.words, h₂.words, List.append_assoc]

/-- To take a token is to spend its words. -/
theorem Takes.spends (h : Takes r t r') : Spends r t.words r' where
  toLeads := h.advances.toLeads
  words := by
    unfold Reading.words
    rw [h.front, List.flatMap_cons]

/-- A token that is taken from a reading with proper spelling is spelled as it should be. -/
theorem Takes.spelled (h : Takes r t r') (hr : r.Spelled) : t.Spelled := by
  apply hr.spelled
  rw [h.front]
  exact List.mem_cons_self

/-- Line breaks are no words. -/
theorem spends_of_skipped (hfront : r'.front = r.front.dropWhile Token.isBreak)
    (hfinal : r'.final = r.final) : Spends r [] r' where
  front := by
    rw [hfront]
    exact List.dropWhile_suffix _
  final := hfinal
  words := by
    have hbreaks : ∀ ts : List Token,
        ts.flatMap Token.words = (ts.dropWhile Token.isBreak).flatMap Token.words := by
      intro ts
      induction ts with
      | nil => rfl
      | cons t rest ih =>
        cases hbreak : t.isBreak with
        | false => rw [List.dropWhile_cons_of_neg (by simp [hbreak])]
        | true =>
          have hkind : t.kind = .newline := by simpa [Token.isBreak] using hbreak
          have hmark : t.kind.isMark = true := by rw [hkind]; rfl
          rw [List.dropWhile_cons_of_pos hbreak, List.flatMap_cons, Token.words_of_mark hmark, ih]
          rfl
    unfold Reading.words
    rw [List.nil_append, hfront]
    exact hbreaks r.front

end Reading

namespace Grammar

open Reading

/-- Whatever result the piece gives, it and the words that were taken for it have the property. -/
def Accounts {α : Type} (p : Grammar α) (r : Reading) (Q : α → List Word → Prop) : Prop :=
  r.Spelled → Ensures (fun _ => True) p r fun a r' => ∃ ws, Q a ws ∧ r.Spends ws r'

section Rules

variable {α β : Type} {r : Reading}

/-- The reasons for which a piece may stop can be forgotten. -/
theorem Ensures.weaken {E : Halt → Prop} {p : Grammar α} {Q : α → Reading → Prop}
    (h : Ensures E p r Q) : Ensures (fun _ => True) p r Q := by
  unfold Ensures at h ⊢
  cases hr : p r with
  | ok a r' =>
    rw [hr] at h
    exact h
  | error e r' => trivial

/-- A result accounts for no words. -/
theorem accounts_pure {a : α} {Q : α → List Word → Prop} (h : Q a []) :
    Accounts (pure a : Grammar α) r Q := by
  intro _
  exact ensures_pure ⟨[], h, .refl r⟩

/-- A stop accounts for anything. -/
theorem accounts_throw {e : Halt} {Q : α → List Word → Prop} :
    Accounts (throw e : Grammar α) r Q := by
  intro _
  exact ensures_throw trivial

/-- Sequences account for the words of their parts one after the other. -/
theorem accounts_bind {p : Grammar α} {f : α → Grammar β} {P : α → List Word → Prop}
    {Q : β → List Word → Prop} (hp : Accounts p r P)
    (hf : ∀ a ws r', P a ws → Accounts (f a) r' fun b more => Q b (ws ++ more)) :
    Accounts (p >>= f) r Q := by
  intro hr
  apply ensures_bind (hp hr)
  rintro a r' ⟨ws, ha, hspends⟩
  apply ensures_mono (hf a ws r' ha (hspends.toLeads.spelled hr))
  rintro b r'' ⟨more, hb, hspends'⟩
  exact ⟨ws ++ more, hb, hspends.trans hspends'⟩

/-- What accounts for words by a stronger relation does so by a weaker one. -/
theorem accounts_mono {p : Grammar α} {P Q : α → List Word → Prop} (hp : Accounts p r P)
    (h : ∀ a ws, P a ws → Q a ws) : Accounts p r Q := by
  intro hr
  apply ensures_mono (hp hr)
  rintro a r' ⟨ws, ha, hspends⟩
  exact ⟨ws, h a ws ha, hspends⟩

end Rules

/-! ## Looking at tokens and taking them -/

section Tokens

variable {β : Type} {r : Reading} {Q : β → List Word → Prop}

/-- A look at the next token spends no words. -/
theorem accounts_peek {f : Token → Grammar β}
    (hf : ∀ t, r.next? = some t → Accounts (f t) r Q) : Accounts (peek >>= f) r Q := by
  intro hr
  apply ensures_bind (ensures_peek hr.legal).weaken
  rintro t r' ⟨rfl, ht⟩
  exact hf t ht hr

/-- To take the next token spends its words. -/
theorem accounts_next {f : Token → Grammar β} {t : Token} (ht : r.next? = some t)
    (hend : t.kind ≠ .endOfInput)
    (hf : ∀ r', t.Spelled → Accounts (f t) r' fun b more => Q b (t.words ++ more)) :
    Accounts (next >>= f) r Q := by
  intro hr
  apply ensures_bind (ensures_next hr.legal ht hend).weaken
  rintro u r' ⟨rfl, htakes⟩
  apply ensures_mono (hf r' (htakes.spelled hr) (htakes.advances.toLeads.spelled hr))
  rintro b r'' ⟨more, hb, hspends⟩
  exact ⟨_, hb, htakes.spends.trans hspends⟩

/-- The piece takes nothing, and what it gives says at most that the next token is of one of the
kinds. -/
def Looks (look : Grammar Bool) (kinds : List Kind) : Prop :=
  ∀ r : Reading, r.Legal → Ensures Halt.IsFault look r fun b r' =>
    r' = r ∧ (b = true → ∃ t, r.next? = some t ∧ t.kind ∈ kinds)

/-- A look at the kind of the next token takes nothing. -/
theorem looks_peekIs (kinds : List Kind) : Looks (peekIs kinds) kinds := by
  intro r hr
  apply ensures_mono (ensures_peekIs hr kinds)
  rintro b r' ⟨rfl, t, ht, rfl⟩
  exact ⟨rfl, fun h => ⟨t, ht, isOneOf_iff.mp h⟩⟩

/-- A look at how a line continues takes nothing. -/
theorem looks_continuesWith (kinds : List Kind) : Looks (continuesWith kinds) kinds := by
  intro r hr
  apply ensures_mono (ensures_continuesWith hr kinds)
  rintro b r' ⟨rfl, hb⟩
  refine ⟨rfl, fun h => ?_⟩
  obtain ⟨t, ht, hone⟩ := hb h
  exact ⟨t, ht, isOneOf_iff.mp hone⟩

variable {look : Grammar Bool} {kinds : List Kind}

/-- A choice that takes nothing itself. -/
theorem accounts_choice (hlook : Looks look kinds) {f : Bool → Grammar β}
    (hf : ∀ b, Accounts (f b) r Q) : Accounts (look >>= f) r Q := by
  intro hr
  apply ensures_bind (hlook r hr.legal).weaken
  rintro b r' ⟨rfl, -⟩
  exact hf b hr

/-- A choice whose first branch takes the token that was looked at. -/
theorem accounts_next_or (hlook : Looks look kinds) (hend : Kind.endOfInput ∉ kinds)
    {f : Token → Grammar β} {p : Grammar β}
    (hf : ∀ t r', t.kind ∈ kinds → t.Spelled →
      Accounts (f t) r' fun b more => Q b (t.words ++ more))
    (hp : Accounts p r Q) :
    Accounts (look >>= fun b => if b = true then next >>= f else p) r Q := by
  intro hr
  apply ensures_bind (hlook r hr.legal).weaken
  rintro b r' ⟨rfl, hb⟩
  cases b with
  | false => exact hp hr
  | true =>
    obtain ⟨t, ht, hkind⟩ := hb rfl
    have hne : t.kind ≠ .endOfInput := fun h => hend (h ▸ hkind)
    exact accounts_next ht hne (fun r' hspelled => hf t r' hkind hspelled) hr

/-- To take a token of some kinds spends its words. -/
theorem accounts_expect (hend : Kind.endOfInput ∉ kinds) :
    Accounts (expect kinds) r fun t ws => t.kind ∈ kinds ∧ t.Spelled ∧ ws = t.words := by
  intro hr
  apply ensures_mono (ensures_expect hr.legal hend).weaken
  rintro t r' ⟨hkind, htakes⟩
  exact ⟨t.words, ⟨hkind, htakes.spelled hr, rfl⟩, htakes.spends⟩

/-- To take a mark spends no words. -/
theorem accounts_mark {k : Kind} (hmark : k.isMark = true) (hend : k ≠ .endOfInput) :
    Accounts (expect [k]) r fun _ ws => ws = [] := by
  apply accounts_mono (accounts_expect (by simpa using hend.symm))
  rintro t ws ⟨hkind, -, rfl⟩
  rw [List.mem_singleton] at hkind
  exact Token.words_of_mark (by rw [hkind]; exact hmark)

/-- To take a token of a kind with a fixed spelling spends the word of its kind. -/
theorem accounts_fixed {k : Kind} (hfixed : k ∈ Kind.reserved ++ Kind.signs)
    (hmark : k.isMark = false) : Accounts (expect [k]) r fun _ ws => ws = [.fixed k] := by
  have hend : Kind.endOfInput ∉ [k] := by
    rw [List.mem_singleton]
    rintro rfl
    exact absurd hfixed (by decide)
  apply accounts_mono (accounts_expect hend)
  rintro t ws ⟨hkind, hspelled, rfl⟩
  exact hspelled.words_eq (List.mem_singleton.mp hkind) hfixed hmark

/-- To take an identifier spends its name. -/
theorem accounts_name : Accounts (expect [.identifier]) r fun t ws => ws = [.name t.value] := by
  apply accounts_mono (accounts_expect (by decide))
  rintro t ws ⟨hkind, -, rfl⟩
  rw [List.mem_singleton] at hkind
  rw [Token.words_of_not_mark (by rw [hkind]; rfl), Token.word, hkind]
  rfl

/-- The closing parenthesis behind what was read before. -/
theorem accounts_close (b : β) :
    Accounts (do
      let _ ← expect [.rightParen]
      pure b) r fun b' ws => b' = b ∧ ws = [] := by
  apply accounts_bind (accounts_mark rfl (by decide))
  rintro paren _ r₁ rfl
  exact accounts_pure ⟨rfl, rfl⟩

/-- To skip line breaks spends no words. -/
theorem accounts_skipBreaks : Accounts skipBreaks r fun _ ws => ws = [] := by
  intro hr
  apply ensures_mono (ensures_skipBreaks hr.legal).weaken
  rintro - r' ⟨hfront, hfinal, -⟩
  exact ⟨[], rfl, spends_of_skipped hfront hfinal⟩

/-- To end a line spends no words. -/
theorem accounts_endLine : Accounts endLine r fun _ ws => ws = [] := by
  show Accounts (if r.afterBreak then pure () else _) r _
  split
  · exact accounts_pure rfl
  · apply accounts_choice (looks_peekIs _)
    intro b
    split
    · exact accounts_pure rfl
    · apply accounts_bind (accounts_mark rfl (by decide))
      rintro t ws r' rfl
      exact accounts_pure rfl

/-- To open arms or a block spends the colon. -/
theorem accounts_opening : Accounts opening r fun _ ws => ws = [.fixed .colon] := by
  apply accounts_bind (accounts_fixed (by decide) rfl)
  rintro colon ws r₁ rfl
  apply accounts_bind (accounts_mark rfl (by decide))
  rintro newline ws r₂ rfl
  apply accounts_mono accounts_skipBreaks
  rintro _ ws rfl
  rfl

end Tokens

end Grammar

end Offside
