import Offside.Proofs.Token.Texts
import Offside.Proofs.Tree.Viable

/-!
# Faults are found at the earliest token

A source that breaks off in the middle of a statement can be completed, whatever it is in the middle
of, so a token is refused only if the tokens before it are the start of some program. The statement
that the source breaks off in is the last one of every block around it, hence nothing has to follow
the words that complete it.
-/

set_option autoImplicit false

namespace Offside

namespace Grammar

open Reading Piece

variable {α β : Type} {m : Nat} {r : Reading}

/-! ## Headers and statements of one line -/

/-- An expression may be the last of a source. -/
theorem Last.follows {b : Bool} {rest : List Piece} (h : Last b rest) : Follows b rest := by
  have hrest : rest = [] := h
  exact hrest ▸ follows_end

/-- An expression at the end of a statement. -/
theorem viable_value (hr : r.BreaksOff .cut) : Viable Last (fun n => expression n levels) m r :=
  viable_mono ((expressionsViable m).whole hr) fun _ _ h => h.follows

/-- Where nothing follows, there may be nothing to write. -/
theorem fresh_last {f : Nat → β → Grammar α}
    (h : ∀ n a {b : Bool} {r' : Reading}, r'.Stands b [] →
      Yields (f n a) r' fun _ r₁ => r₁.Stands b []) : Fresh Last Last f := by
  refine fun b => ⟨[], b, fun _ h => h, by simp, ?_⟩
  rintro rest rfl i r' hr'
  exact h i.1 i.2 hr'

/-- A piece that takes nothing at the end has an empty phrase there. -/
theorem phrase_last {p : Nat → Grammar α} {b : Bool}
    (h : ∀ n {r' : Reading}, r'.Stands b [] → Yields (p n) r' fun _ r₁ => r₁.Stands b []) :
    Phrase Last p b [] b := by
  refine ⟨by simp, ?_⟩
  rintro rest rfl n r' hr'
  exact h n hr'

/-- A piece that takes nothing at the end is complete there. -/
theorem completes_last {p : Nat → Grammar α} (hnil : r.front = [])
    (h : ∀ n {r' : Reading}, r'.Stands r.afterBreak [] →
      Yields (p n) r' fun _ r₁ => r₁.Stands r.afterBreak []) : Completes Last p r :=
  completes_of_nil [] r.afterBreak hnil (phrase_last h)

/-- Further parameters that break off can be completed up to the closing parenthesis. -/
theorem viable_moreParams (m : Nat) {r : Reading} (hr : r.BreaksOff .cut) :
    Viable Closed moreParams m r := by
  induction m generalizing r with
  | zero => exact viable_starved rfl
  | succ m ih =>
    have hnil : r.front = [] → Completes Closed (fun n => moreParams (n + 1)) r := by
      refine fun hnil => completes_of_nil [] r.afterBreak hnil ⟨by simp, ?_⟩
      intro rest hrest n r' hr'
      exact yields_moreParams_none hr' hrest.ne_comma (n + 1)
    apply viable_succ rfl
    simp only [moreParams] at hnil ⊢
    refine viable_choice hr hnil (fun comma r₁ _ hr₁ => ?_) fun _ _ _ _ => viable_pure []
    refine viable_expect hr₁ (by decide) (fun hnil => ?_)
      fun param r₂ _ _ hr₂ => viable_map (ih hr₂)
    refine completes_of_nil [.name] false hnil ⟨by decide, ?_⟩
    intro rest hrest n r' hr'
    refine ensures_bind (yields_expect hr'.shows (by decide) (by decide)) ?_
    rintro param r₂ ⟨-, -, hr₂, hline⟩
    exact yields_map (yields_moreParams_none ⟨hr₂, hline⟩ hrest.ne_comma n)

/-- Parameters that break off can be completed. -/
theorem viable_params (hr : r.BreaksOff .cut) : Viable Anything params m r := by
  refine viable_expect hr (by decide) (fun hnil => ?_) fun paren r₁ _ _ hr₁ => ?_
  · refine completes_of_nil [.fixed .leftParen, .fixed .rightParen] false hnil ⟨by decide, ?_⟩
    intro rest _ n r' hr'
    exact yields_params_none hr'.shows n
  refine viable_if_peekIs hr₁ (fun hnil => ?_) (fun _ _ _ _ => viable_close hr₁ []) ?_
  · refine completes_of_nil [.fixed .rightParen] false hnil ⟨by decide, ?_⟩
    intro rest _ n r' hr'
    exact yields_if_peekIs hr'.shows (List.mem_singleton_self _) (yields_close hr'.shows [])
  intro _ _ _ _
  refine viable_expect hr₁ (by decide) (fun hnil => ?_) fun param r₂ _ _ hr₂ => ?_
  · refine completes_of_nil [.name, .fixed .rightParen] false hnil ⟨by decide, ?_⟩
    intro rest _ n r' hr'
    refine ensures_bind (yields_expect hr'.shows (by decide) (by decide)) ?_
    rintro param r₂ ⟨-, -, hr₂, hline⟩
    have hnone := yields_moreParams_none ⟨hr₂, hline⟩ (by simp [nextKind, Piece.fixed]) n
    exact yields_listEnd hnone param.value
  · refine viable_bind (F := Closed) ?_ hr₂ (viable_moreParams m hr₂) ?_
      fun _ r₃ _ hr₃ => viable_close hr₃ _
    · exact steady_of_lockstep fun s n => agrees_moreParams m n
    · refine fun b => ⟨[.fixed .rightParen], false, fun _ _ => rfl, by decide, ?_⟩
      intro rest _ i r' hr'
      exact yields_close hr'.shows _

/-- A declaration that breaks off can be completed. -/
theorem viable_declaration (hr : r.BreaksOff .cut) (hmore : r.front ≠ []) :
    Viable Last declaration m r := by
  refine viable_expect hr (by decide) (fun hnil => absurd hnil hmore) fun tok r₁ _ _ hr₁ => ?_
  refine viable_expect hr₁ (by decide) (fun hnil => ?_) fun name r₂ _ _ hr₂ => ?_
  · refine completes_of_nil [.name] false hnil ⟨by decide, ?_⟩
    rintro rest rfl n r' hr'
    refine ensures_bind (yields_expect hr'.shows (by decide) (by decide)) ?_
    rintro name r₂ ⟨-, -, hr₂, hline⟩
    exact yields_unless_peekIs hr₂ (by decide) (ensures_pure ⟨hr₂, hline⟩)
  · refine viable_choice hr₂ (fun hnil => ?_) (fun sign r₃ _ hr₃ => viable_map (viable_value hr₃))
      fun _ _ _ _ => viable_pure _
    exact completes_last hnil fun n r' hr' =>
      yields_unless_peekIs hr'.shows (by decide) (ensures_pure hr')

/-- A `return` that breaks off can be completed. -/
theorem viable_ret (hr : r.BreaksOff .cut) (hmore : r.front ≠ []) : Viable Last ret m r := by
  refine viable_next hr (fun hnil => absurd hnil hmore) fun tok r₁ _ hr₁ => ?_
  refine viable_if_peekIs hr₁ (fun hnil => ?_) (fun _ _ _ _ => viable_pure _)
    fun _ _ _ _ => viable_map (viable_value hr₁)
  exact completes_last hnil fun n r' hr' =>
    yields_if_peekIs hr'.shows (by decide) (ensures_pure hr')

/-- An expression that is a statement and breaks off can be completed. -/
theorem viable_expressionStatement (hr : r.BreaksOff .cut) :
    Viable Last expressionStatement m r := by
  refine viable_bind_expression (expressionsViable m) hr ?_ fun target r₁ hr₁ => ?_
  · refine fun b => ⟨[], b, fun _ h => h.follows, by simp, ?_⟩
    rintro rest rfl i r' hr'
    exact yields_unless_continuesWith hr'.shows (.inr (by decide)) (ensures_pure hr')
  · refine viable_continue hr₁ (by decide) (fun hnil => ?_) (fun sign r₂ _ hr₂ => ?_)
      (viable_pure target)
    · exact completes_last hnil fun n r' hr' =>
        yields_unless_continuesWith hr'.shows (.inr (by decide)) (ensures_pure hr')
    · cases target with
      | reference tok name => exact viable_map (viable_value hr₂)
      | _ =>
        -- the sign is blamed as soon as it is taken, and it stands in front of the cut
        exact viable_fail _ _ _ _

/-- The end of a line may be the end of the source. -/
theorem viable_line {p : Nat → Grammar Node} (hsteady : Steady p m r) (hr : r.BreaksOff .cut)
    (hp : Viable Last p m r) : Viable Last (fun n => do let node ← p n; endLine; pure node) m r := by
  refine viable_bind hsteady hr hp (fresh_last fun _ node _ _ hr' => yields_endLine_end hr' node) ?_
  intro node r₁ _ hr₁
  refine viable_endLine hr₁ (fun hnil _ => ?_) fun _ _ _ => viable_pure node
  exact completes_last hnil fun _ _ hr' => yields_endLine_end hr' node

/-- A statement of one line that breaks off can be completed. -/
theorem viable_simpleStatement (hr : r.BreaksOff .cut) {first : Token} {front : List Token}
    (hfront : r.front = first :: front) :
    Viable Last (fun n => simpleStatement n first.kind) m r := by
  have hmore : r.front ≠ [] := by simp [hfront]
  have hfirst : r.next? = some first := by simp [next?, hfront]
  unfold simpleStatement
  by_cases hlet : first.kind = .letWord
  · simp only [hlet, if_true]
    refine viable_line ?_ hr (viable_declaration hr hmore)
    exact steady_of_lockstep fun s n => agrees_declaration (.inl Comparison.longer_full)
  by_cases hret : first.kind = .returnWord
  · simp only [hret, reduceCtorEq, if_true, if_false]
    refine viable_line ?_ hr (viable_ret hr hmore)
    exact fun s n r' h =>
      agrees_ret (C := .longer .cut s) (.inl Comparison.longer_full) h hfirst hret
  · simp only [hlet, hret, if_false]
    refine viable_line ?_ hr (viable_expressionStatement hr)
    exact steady_of_lockstep fun s n => agrees_expressionStatement (.inl Comparison.longer_full)

/-! ## Blocks and branches -/

/-- What holds of the pieces of the grammar for statements with the given amount of fuel. -/
structure StatementsViable (m : Nat) : Prop where
  statement : ∀ {r : Reading}, r.BreaksOff .cut → r.front ≠ [] → Viable Last statement m r
  block : ∀ {r : Reading}, r.BreaksOff .cut → Viable Last block m r
  statements : ∀ column, ∀ {r : Reading}, r.BreaksOff .cut →
    Viable Last (fun n => statements n column) m r
  branches : ∀ {r : Reading}, r.BreaksOff .cut → Viable Last branches m r

/-- What a statement finds out before its source breaks off holds of longer sources. -/
theorem steady_statement : Steady statement m r := by
  intro s n r' h
  refine (statementsAgree (C := .longer .cut s) (.inl Comparison.longer_full) m n).statement
    (L := ContinuedBy .cut s) (fun hs => agrees_endLine hs Comparison.longer_full)
    (fun _ _ _ hs => hs) h (.inr Comparison.longer_full)

/-- What a block finds out before its source breaks off holds of longer sources. -/
theorem steady_block : Steady block m r := by
  intro s n r' h
  refine agrees_mono ((statementsAgree (C := .longer .cut s) (.inl Comparison.longer_full) m
    n).block h) ?_
  rintro b r₁ r₁' ⟨-, hr₁⟩
  exact hr₁

section Statements

variable (ih : StatementsViable m) (hr : r.BreaksOff .cut)
include ih hr

/-- A condition and its body. -/
theorem viable_guarded {f : Nat → Node → Token × List Node → Grammar α}
    (hend : ∀ n condition body {b : Bool} {r' : Reading}, r'.Stands b [] →
      Yields (f n condition body) r' fun _ r₁ => r₁.Stands b [])
    (hf : ∀ condition body {r₁ : Reading}, r₁.BreaksOff .cut →
      Viable Last (fun n => f n condition body) m r₁) :
    Viable Last (fun n => do
      let condition ← expression n levels
      let body ← block n
      f n condition body) m r := by
  refine viable_bind_expression (expressionsViable m) hr ?_ fun condition r₁ hr₁ => ?_
  · refine fun b => ⟨[.fixed .colon, .newline, .truth], false,
      fun _ _ => follows_fixed (by decide) (by decide), by decide, ?_⟩
    rintro rest rfl i r' hr'
    refine ensures_bind (yields_block_truth hr'.shows i.1) ?_
    intro body r₁ hr₁
    exact hend i.1 i.2 body hr₁
  · exact viable_bind steady_block hr₁ (ih.block hr₁) (fresh_last fun n => hend n condition)
      fun body r₂ _ hr₂ => hf condition body hr₂

/-- A statement that breaks off can be completed. -/
theorem viable_statement (hmore : r.front ≠ []) :
    Viable Last (fun n => statement (n + 1)) m r := by
  simp only [statement]
  refine viable_peek hr (fun hnil => absurd hnil hmore) fun first front hfront => ?_
  by_cases hfn : first.kind = .fnWord
  · simp only [hfn]
    refine viable_expect hr (by decide) (fun hnil => absurd hnil hmore) fun tok r₁ _ _ hr₁ => ?_
    refine viable_expect hr₁ (by decide) (fun hnil => ?_) fun name r₂ _ _ hr₂ => ?_
    · refine completes_of_nil [.name, .fixed .leftParen, .fixed .rightParen, .fixed .colon,
        .newline, .truth] false hnil ⟨by decide, ?_⟩
      rintro rest rfl n r' hr'
      refine ensures_bind (yields_expect hr'.shows (by decide) (by decide)) ?_
      rintro name r₂ ⟨-, -, hr₂, -⟩
      refine ensures_bind (yields_params_none hr₂ n) ?_
      intro names r₃ hr₃
      exact yields_map (yields_block_truth hr₃.shows n)
    · refine viable_bind (F := Anything) ?_ hr₂ (viable_params hr₂) ?_
        fun names r₃ _ hr₃ => viable_map (ih.block hr₃)
      · exact steady_of_lockstep fun s n => agrees_params
      · refine fun b => ⟨[.fixed .colon, .newline, .truth], false, fun _ _ => trivial,
          by decide, ?_⟩
        rintro rest rfl i r' hr'
        exact yields_map (yields_block_truth hr'.shows i.1)
  by_cases hif : first.kind = .ifWord
  · simp only [hif]
    refine viable_expect hr (by decide) (fun hnil => absurd hnil hmore) fun tok r₁ _ _ hr₁ => ?_
    refine viable_guarded ih hr₁ ?_ fun condition body r₂ hr₂ => viable_map (ih.branches hr₂)
    intro n condition body b r' hr'
    exact yields_map (yields_branches_end hr' n)
  by_cases hwhile : first.kind = .whileWord
  · simp only [hwhile]
    refine viable_expect hr (by decide) (fun hnil => absurd hnil hmore) fun tok r₁ _ _ hr₁ => ?_
    exact viable_guarded ih hr₁ (fun _ _ _ _ _ hr' => ensures_pure hr') fun _ _ _ _ => viable_pure _
  · split
    · exact absurd ‹_› hfn
    · exact absurd ‹_› hif
    · exact absurd ‹_› hwhile
    · exact viable_simpleStatement hr hfront

/-- A block that breaks off can be completed. -/
theorem viable_block : Viable Last (fun n => block (n + 1)) m r := by
  simp only [block]
  refine viable_bind (F := Inline) steady_opening hr (viable_opening hr) ?_ fun _ r₁ _ hr₁ => ?_
  · refine fun b => ⟨[.truth], false, fun _ _ => by simp [Inline, nextKind, Piece.truth],
      by decide, ?_⟩
    rintro rest rfl i r' hr'
    exact yields_body_truth hr'.shows i.1
  refine viable_peek hr₁ (fun hnil => ?_) fun first front _ => ?_
  · refine completes_of_nil [.truth] false hnil ⟨by decide, ?_⟩
    rintro rest rfl n r' hr'
    exact yields_body_truth hr'.shows n
  refine viable_ite (fun _ => viable_fail _ _ _ _) fun _ => ?_
  refine viable_bind ?_ hr₁ (ih.statements first.pos.column hr₁) ?_ ?_
  · exact steady_of_lockstep fun s n =>
      (statementsAgree (.inl Comparison.longer_full) m n).statements Comparison.longer_full _
  · apply fresh_last
    rintro n body b r' ⟨⟨pos, hfront, hfinal⟩, hline⟩
    exact ⟨⟨pos, hfront, hfinal⟩, hline⟩
  · -- a block that was read is only noted
    intro body r₂ _ _ left hleft
    cases hleft

/-- Statements in a column that break off can be completed. -/
theorem viable_statements (column : Int) :
    Viable Last (fun n => statements (n + 1) column) m r := by
  have hnone : Phrase Last (fun n => statements (n + 1) column) r.pastBreaks.afterBreak []
      r.pastBreaks.afterBreak :=
    phrase_last fun n _ hr' => yields_statements_end hr' column (n + 1)
  simp only [statements] at hnone ⊢
  refine viable_skipBreaks hr (fun hnil => completes_pastBreaks [] _ hnil hnone ?_) ?_
  · rintro rest rfl
    decide
  intro tok front hfront hr₁
  have hmore : r.pastBreaks.front ≠ [] := by simp [hfront]
  refine viable_peek hr₁ (fun hnil => absurd hnil hmore) fun _ _ _ => ?_
  refine viable_ite (fun _ => viable_pure []) fun _ => ?_
  refine viable_bind steady_statement hr₁ (ih.statement hr₁ hmore) ?_
    fun first r₂ _ hr₂ => viable_map (ih.statements column hr₂)
  apply fresh_last
  intro n first b r' hr'
  exact yields_map (yields_statements_end hr' column n)

/-- Branches that break off can be completed. -/
theorem viable_branches : Viable Last (fun n => branches (n + 1)) m r := by
  have hnil : r.front = [] → Completes Last (fun n => branches (n + 1)) r :=
    fun hnil => completes_last hnil fun n _ hr' => yields_branches_end hr' (n + 1)
  simp only [branches] at hnil ⊢
  refine viable_choice hr hnil (fun word r₁ _ hr₁ => ?_) fun tok front hfront _ => ?_
  · refine viable_guarded ih hr₁ ?_ fun condition body r₂ hr₂ => viable_map (ih.branches hr₂)
    intro n condition body b r' hr'
    exact yields_map (yields_branches_end hr' n)
  · exact viable_choice hr (fun h => by simp [h] at hfront)
      (fun word r₁ _ hr₁ => viable_map (ih.block hr₁)) fun _ _ _ _ => viable_pure _

end Statements

/-- With any fuel, statements that break off can be completed. -/
theorem statementsViable (m : Nat) : StatementsViable m := by
  induction m with
  | zero => constructor <;> intros <;> exact viable_starved rfl
  | succ m ih =>
    exact {
      statement := fun hr hmore => viable_succ rfl (viable_statement ih hr hmore)
      block := fun hr => viable_succ rfl (viable_block ih hr)
      statements := fun column _ hr => viable_succ rfl (viable_statements ih hr column)
      branches := fun hr => viable_succ rfl (viable_branches ih hr) }

/-- Tokens that a program reads to their end are the start of a program. -/
theorem viable_program (m : Nat) {r : Reading} (hr : r.BreaksOff .cut) :
    Viable Last program m r := by
  induction m generalizing r with
  | zero => exact viable_starved rfl
  | succ m ih =>
    have hnone : Phrase Last (fun n => program (n + 1)) r.pastBreaks.afterBreak []
        r.pastBreaks.afterBreak := phrase_last fun n _ hr' => yields_program_end hr' (n + 1)
    apply viable_succ rfl
    simp only [program] at hnone ⊢
    refine viable_skipBreaks hr (fun hnil => completes_pastBreaks [] _ hnil hnone ?_) ?_
    · rintro rest rfl
      decide
    intro tok front hfront hr₁
    have hmore : r.pastBreaks.front ≠ [] := by simp [hfront]
    refine viable_if_peekIs hr₁ (fun hnil => absurd hnil hmore) (fun _ _ _ _ => viable_pure []) ?_
    intro _ _ _ _
    refine viable_bind steady_statement hr₁ ((statementsViable m).statement hr₁ hmore) ?_
      fun first r₂ _ hr₂ => viable_map (ih hr₂)
    apply fresh_last
    intro n first b r' hr'
    exact yields_map (yields_program_end hr' n)

end Grammar

/-! ## Texts -/

/-- Only the last token can be the end. -/
theorem TokenStream.prefix_front {s : TokenStream} {before after : List Token} {t : Token}
    (h : s.toList = before ++ t :: after) : before <+: s.front := by
  have hfront : s.front <+: s.toList ∧ s.toList.length ≤ s.front.length + 1 := by
    unfold toList
    cases s.final <;> simp
  apply List.prefix_of_prefix_length_le (h ▸ List.prefix_append _ _) hfront.1
  have hlength := hfront.2
  rw [h, List.length_append, List.length_cons] at hlength
  omega

/-- Tokens that a program reads to the place where they break off can be completed to a text. -/
theorem Parse.exists_completion {text : Text} {before : List Token}
    (hbefore : before <+: (TokenStream.ofText text).front)
    (h : (ofStream ⟨before, .error .cut⟩).outcome = .error .cut) :
    ∃ text' tree, (ofText text').outcome = .ok tree ∧
      before <+: (TokenStream.ofText text').toList := by
  have hnotEnd : ∀ t ∈ before, t.kind ≠ .endOfInput := fun t ht =>
    ((TokenStream.ofText_legal text).front t (hbefore.subset ht)).notEnd
  obtain ⟨left, hrun⟩ := outcome_eq_error_iff.mp h
  obtain ⟨ps, b, hps, hread⟩ := Grammar.viable_program _ ⟨rfl, hnotEnd⟩ left hrun
  obtain ⟨text', pos, finish, htext'⟩ := TokenStream.ofText_cut hbefore ps hps
  have hresumes : (Reading.ofStream ⟨before, .error .cut⟩).Resumes (ps ++ [])
      (.ofStream (TokenStream.ofText text')) := by
    refine ⟨pos, ⟨.endOfInput, "", finish⟩, rfl, ⟨rfl, hnotEnd⟩, ?_, ?_, rfl⟩
    · rw [htext', List.append_nil]
      rfl
    · rw [htext']
      rfl
  have hyields := hread [] rfl (fuelFor (TokenStream.ofText text').front.length) _ hresumes
  refine ⟨text', ?_⟩
  unfold Grammar.Yields Grammar.Ensures at hyields
  cases hrun' : Grammar.program (fuelFor (TokenStream.ofText text').front.length)
      (.ofStream (TokenStream.ofText text')) with
  | ok nodes left' =>
    refine ⟨_, outcome_eq_ok_iff.mpr ⟨nodes, left', hrun', rfl⟩, ?_⟩
    rw [htext']
    exact ⟨_, (List.append_assoc _ _ _).symm⟩
  | error e left' =>
    rw [hrun'] at hyields
    exact absurd (outcome_eq_error_iff.mpr ⟨left', hyields ▸ hrun'⟩)
      (outcome_ne_outOfFuel (TokenStream.ofText_legal text'))

/-- A text whose syntax is wrong is refused at one of its tokens, the end included, and the tokens
before that one are the first tokens of a text whose syntax is right. -/
theorem syntax_fault_at_earliest_token {text : Text} {got : Kind} {kinds : List Kind}
    {reason : String} {pos : Position}
    (h : (Parse.ofText text).outcome = .error (.fault (.unexpected got kinds reason pos))) :
    ∃ before t after, (TokenStream.ofText text).toList = before ++ t :: after ∧
      t.kind = got ∧ t.pos = pos ∧ (∀ u ∈ before ++ after, u.pos ≠ pos) ∧
      ∃ text' tree, (Parse.ofText text').outcome = .ok tree ∧
        before <+: (TokenStream.ofText text').toList := by
  have hlegal := TokenStream.ofText_legal text
  obtain hfinal | ⟨t, kinds', reason', ht, hblame⟩ := Parse.blames hlegal h
  · exact absurd hfinal (TokenStream.ofText_final_ne text got kinds reason pos)
  simp only [Halt.fault.injEq, Fault.unexpected.injEq] at hblame
  obtain ⟨rfl, -, -, rfl⟩ := hblame
  obtain ⟨before, after, hsplit⟩ := List.append_of_mem ht
  have hplaces := TokenStream.pairwise_ofText text
  rw [hsplit, List.pairwise_map, List.pairwise_append, List.pairwise_cons] at hplaces
  obtain ⟨-, ⟨hafter, -⟩, hbefore⟩ := hplaces
  have hunique : ∀ u ∈ before ++ after, u.pos ≠ t.pos := by
    intro u hu
    rcases List.mem_append.mp hu with hu | hu
    · exact (hbefore u hu t List.mem_cons_self).ne
    · exact (hafter u hu).ne.symm
  have hfront := TokenStream.prefix_front hsplit
  refine ⟨before, t, after, hsplit, rfl, rfl, hunique, Parse.exists_completion hfront ?_⟩
  refine (Parse.outcome_of_front hlegal ⟨_, rfl⟩ hfront).resolve_right fun hsame => ?_
  -- otherwise the first tokens alone are refused for the same reason, so one of them is blamed
  have hcut : TokenStream.Legal ⟨before, .error .cut⟩ :=
    ⟨fun u hu => hlegal.front u (hfront.subset hu), _, rfl⟩
  obtain hfinal | ⟨u, kinds', reason', hu, hblame⟩ := Parse.blames hcut (hsame.symm.trans h)
  · simp [Halt.cut] at hfinal
  · simp only [Halt.fault.injEq, Fault.unexpected.injEq] at hblame
    exact hunique u (List.mem_append_left _ hu) hblame.2.2.2.symm

/-- An operand is missing in a parenthesis in a call in an arm of a selection in a function. -/
theorem syntax_fault_at_earliest_token_nested :
    (Parse.ofText (Text.ofString "fn f(a):\n  return match a:\n    | 1 -> g(2, (a +\n")).outcome =
        .error (.fault (.unexpected .newline Grammar.atomKinds "" ⟨2, 20⟩)) ∧
      ∃ before t after, (TokenStream.ofText (Text.ofString
          "fn f(a):\n  return match a:\n    | 1 -> g(2, (a +\n")).toList = before ++ t :: after ∧
        t.kind = .newline ∧ t.pos = ⟨2, 20⟩ ∧ (∀ u ∈ before ++ after, u.pos ≠ ⟨2, 20⟩) ∧
        ∃ text' tree, (Parse.ofText text').outcome = .ok tree ∧
          before <+: (TokenStream.ofText text').toList := by
  have hfault : (Parse.ofText (Text.ofString
      "fn f(a):\n  return match a:\n    | 1 -> g(2, (a +\n")).outcome =
      .error (.fault (.unexpected .newline Grammar.atomKinds "" ⟨2, 20⟩)) :=
    Parse.outcome_eq_error_iff_stop?.mpr (by decide +kernel)
  exact ⟨hfault, syntax_fault_at_earliest_token hfault⟩

end Offside
