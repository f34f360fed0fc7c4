import Offside.Proofs.Tree.ExpressionComplete
import Offside.Proofs.Tree.StatementSound

/-!
# Rendered programs are read back

What the grammar reads off the lines of a well-formed program without points in its numbers is that
program again, up to places. A body ends where a line starts less deep, and a conditional that could
take a further branch must not be followed by one. Together with the converse,
`Parse.ofText_sound`, this says which trees sources have.
-/

set_option autoImplicit false

namespace Offside

namespace Grammar

open Reading Piece

variable {r : Reading} {rest : List Piece}

/-- What follows is no further branch. -/
def Settles (rest : List Piece) : Prop :=
  nextKind rest ≠ .elifWord ∧ nextKind rest ≠ .elseWord

/-- The statement was read with its lines, and the pieces are to come. -/
def ReadStatement (n : Node) (rest : List Piece) (m : Node) (r : Reading) : Prop :=
  m.bare = n.bare ∧ r.ShowsLine rest

/-- The statement is read back from its lines. -/
def ReadableStatement (n : Node) : Prop :=
  ∀ (fuel depth : Nat) (rest : List Piece) (r : Reading),
    r.ShowsLine (n.lines depth ++ rest) → Within depth rest → (n.endsOpen = true → Settles rest) →
    Yields (statement fuel) r (ReadStatement n rest)

/-- The statements are read back one level deeper than the line in front of them. -/
def ReadableBody (ns : List Node) : Prop :=
  ∀ (fuel depth : Nat) (rest : List Piece) (r : Reading),
    r.ShowsLine (Node.allLines (depth + 1) ns ++ rest) → Within depth rest →
    (Node.lastEndsOpen ns = true → Settles rest) →
    Yields (statements fuel (2 * (depth + 1 : Nat))) r fun ms r' =>
      Node.allBare ms = Node.allBare ns ∧ r'.ShowsLine rest

/-- The branches are read back behind the first body of their conditional. -/
def ReadableBranches (bs : Branches) : Prop :=
  ∀ (fuel depth : Nat) (rest : List Piece) (r : Reading),
    r.ShowsLine (bs.lines depth .elifWord ++ rest) → Within depth rest →
    (bs.endOpen = true → Settles rest) →
    Yields (branches fuel) r fun cs r' => cs.bare = bs.bare ∧ r'.ShowsLine rest

/-! ## Statements of one line -/

/-- A statement that starts with none of the words of blocks takes one line. -/
theorem yields_line {n : Node} {depth : Nat} {k : Kind} {value : String} {ps : List Piece}
    (hr : r.ShowsLine (.indent depth :: .word k value :: ps))
    (hk : k ∉ [Kind.fnWord, Kind.ifWord, Kind.whileWord])
    (h : ∀ fuel, Yields (if k = .letWord then declaration fuel else if k = .returnWord then ret fuel
      else expressionStatement fuel) r (ReadLine n rest)) (fuel : Nat) :
    Yields (statement fuel) r (ReadStatement n rest) := by
  -- whichever of the three it is, the end of its line is read behind it
  have hsimple : ∀ fuel, Yields (simpleStatement fuel k) r (ReadStatement n rest) := by
    intro fuel
    have hend : ∀ (p : Grammar Node), Yields p r (ReadLine n rest) →
        Yields (do
          let m ← p
          endLine
          pure m) r (ReadStatement n rest) := by
      intro p hp
      refine ensures_bind hp ?_
      rintro m r₁ ⟨hm, hended⟩
      refine ensures_bind (yields_endLine hended) ?_
      rintro - r₂ ⟨hr₂, -⟩
      exact ensures_pure ⟨hm, hr₂⟩
    have hfuel := h fuel
    unfold simpleStatement
    dsimp only
    split
    · rename_i hlet
      rw [if_pos hlet] at hfuel
      exact hend _ hfuel
    · rename_i hlet
      rw [if_neg hlet] at hfuel
      split
      · rename_i hret
        rw [if_pos hret] at hfuel
        exact hend _ hfuel
      · rename_i hret
        rw [if_neg hret] at hfuel
        exact hend _ hfuel
  cases fuel with
  | zero => exact rfl
  | succ fuel =>
    rw [statement]
    refine ensures_bind (yields_peek_line hr) ?_
    rintro first r₁ ⟨rfl, hfirst, -⟩
    rw [hfirst]
    split
    · exact absurd (by decide) hk
    · exact absurd (by decide) hk
    · exact absurd (by decide) hk
    · exact hsimple fuel

/-- A declaration of a readable value, or of none, is readable. -/
theorem readable_declaration {value : Node} (hvalue : value.isNil = true ∨ Readable value)
    (tok : Token) (name : String) : ReadableStatement (.declaration tok name value) := by
  intro fuel depth rest r hr hrest _
  rw [Node.lines, List.cons_append, List.cons_append, List.cons_append] at hr
  refine yields_line hr (by decide) (fun fuel => ?_) fuel
  rw [if_pos rfl, declaration]
  refine ensures_bind (yields_expect hr.shows.of_indent (by decide) (by decide)) ?_
  rintro word r₁ ⟨-, -, hr₁, -⟩
  refine ensures_bind (yields_expect hr₁ (by decide) (by decide)) ?_
  rintro ident r₂ ⟨-, hident, hr₂, hline⟩
  by_cases hnil : value.isNil = true
  · rw [if_pos hnil] at hr₂
    refine yields_unless_peekIs hr₂ (by decide : Kind.newline ∉ [Kind.assign]) ?_
    refine ensures_pure ⟨?_, Or.inr ⟨hline, hr₂⟩⟩
    cases value <;> simp only [Node.isNil, Bool.false_eq_true] at hnil
    rw [Node.bare, Node.bare, Node.bare, Node.bare, hident]
  · rw [if_neg hnil] at hr₂
    refine yields_if_peekIs hr₂ (List.mem_singleton_self _) ?_
    refine ensures_bind (yields_next hr₂ (by decide)) ?_
    rintro sign r₃ ⟨-, -, hr₃, -⟩
    refine ensures_bind ((hvalue.resolve_left hnil).ending fuel depth rest r₃ hr₃ hrest) ?_
    rintro m r₄ ⟨hm, hended⟩
    refine ensures_pure ⟨?_, hended⟩
    rw [Node.bare, Node.bare, hident, hm]

/-- A `return` of a readable value, or of none, is readable. -/
theorem readable_ret {value : Node} (hvalue : value.isNil = true ∨ Readable value)
    (hstart : value.isNil = false → ∀ depth, Starts expressionKinds (value.ending depth))
    (tok : Token) : ReadableStatement (.ret tok value) := by
  intro fuel depth rest r hr hrest _
  rw [Node.lines, List.cons_append, List.cons_append] at hr
  refine yields_line hr (by decide) (fun fuel => ?_) fuel
  rw [if_neg (by decide), if_pos rfl, ret]
  refine ensures_bind (yields_next hr.shows.of_indent (by decide)) ?_
  rintro word r₁ ⟨-, -, hr₁, hline⟩
  by_cases hnil : value.isNil = true
  · rw [if_pos hnil] at hr₁
    refine yields_if_peekIs hr₁ (by decide : Kind.newline ∈ [Kind.newline, Kind.endOfInput]) ?_
    refine ensures_pure ⟨?_, Or.inr ⟨hline, hr₁⟩⟩
    cases value <;> simp only [Node.isNil, Bool.false_eq_true] at hnil
    rw [Node.bare, Node.bare, Node.bare, Node.bare]
  · rw [if_neg hnil] at hr₁
    have hmem := (hstart (Bool.eq_false_iff.mpr hnil) depth).nextKind_mem rest
    have hdisjoint : ∀ k ∈ expressionKinds, k ∉ [Kind.newline, Kind.endOfInput] := by decide
    refine yields_unless_peekIs hr₁ (hdisjoint _ hmem) ?_
    refine ensures_bind ((hvalue.resolve_left hnil).ending fuel depth rest r₁ hr₁ hrest) ?_
    rintro m r₂ ⟨hm, hended⟩
    refine ensures_pure ⟨?_, hended⟩
    rw [Node.bare, Node.bare, hm]

/-- An assignment of a readable value is readable. -/
theorem readable_assignment {value : Node} (hvalue : Readable value) (tok : Token) (name : String) :
    ReadableStatement (.assignment tok name value) := by
  intro fuel depth rest r hr hrest _
  rw [Node.lines, List.cons_append, List.cons_append, List.cons_append] at hr
  refine yields_line hr (by decide) (fun fuel => ?_) fuel
  rw [if_neg (by decide), if_neg (by decide), expressionStatement]
  refine ensures_bind ((readable_reference tok name).part fuel depth
    (.fixed .assign :: (value.ending depth ++ rest)) r hr.shows.of_indent
    (closes_fixed (by decide) _)) ?_
  rintro target r₁ ⟨htarget, hr₁, hline⟩
  refine yields_if_continuesWith hr₁ hline (List.mem_singleton_self _) ?_
  refine ensures_bind (yields_next hr₁ (by decide)) ?_
  rintro sign r₂ ⟨-, -, hr₂, -⟩
  cases target with
  | reference tok' name' =>
    rw [Node.bare, Node.bare] at htarget
    injection htarget with _ hname
    refine ensures_bind (hvalue.ending fuel depth rest r₂ hr₂ hrest) ?_
    rintro m r₃ ⟨hm, hended⟩
    refine ensures_pure ⟨?_, hended⟩
    rw [Node.bare, Node.bare, hname, hm]
  | _ => simp [Node.bare] at htarget

/-- A readable expression is readable as a statement. -/
theorem readable_expressionStatement {e : Node} (he : Readable e)
    (hstart : ∀ depth, Starts expressionKinds (e.ending depth))
    (hlines : ∀ depth, e.lines depth = .indent depth :: e.ending depth) : ReadableStatement e := by
  intro fuel depth rest r hr hrest _
  have hwhole := hr
  obtain ⟨k, value, ps, hps, hk⟩ := hstart depth
  rw [hlines, hps, List.cons_append, List.cons_append] at hr
  rw [hlines, List.cons_append] at hwhole
  have hkinds : ∀ k ∈ expressionKinds, k ∉ [Kind.fnWord, Kind.ifWord, Kind.whileWord] ∧
      k ≠ .letWord ∧ k ≠ .returnWord := by decide
  obtain ⟨hblock, hlet, hret⟩ := hkinds k hk
  refine yields_line hr hblock (fun fuel => ?_) fuel
  rw [if_neg hlet, if_neg hret, expressionStatement]
  refine ensures_bind (he.ending fuel depth rest r hwhole.shows.of_indent hrest) ?_
  rintro target r₁ ⟨htarget, hended⟩
  -- After a selection the next line is in view already: the break keeps it out of this statement.
  have hstop : ∃ qs, r₁.Shows qs ∧ (r₁.afterBreak = true ∨ nextKind qs ∉ [Kind.assign]) := by
    rcases hended with ⟨hbreak, hline⟩ | ⟨-, hline⟩
    · exact ⟨rest, hline.shows, Or.inl hbreak⟩
    · exact ⟨_, hline, Or.inr (by decide : Kind.newline ∉ [Kind.assign])⟩
  obtain ⟨qs, hqs, hnot⟩ := hstop
  exact yields_unless_continuesWith hqs hnot (ensures_pure ⟨htarget, hended⟩)

/-! ## Blocks and branches -/

/-- Further parameters are read up to the closing parenthesis. -/
theorem yields_moreParams {names : List String}
    (hr : r.Shows (Node.paramPieces [.fixed .comma] names ++ .fixed .rightParen :: rest))
    (fuel : Nat) :
    Yields (moreParams fuel) r fun ps r' => ps = names ∧ r'.Shows (.fixed .rightParen :: rest) := by
  induction names generalizing r fuel with
  | nil =>
    cases fuel with
    | zero => exact rfl
    | succ fuel =>
      rw [moreParams]
      exact yields_unless_peekIs hr (by decide : Kind.rightParen ∉ [Kind.comma])
        (ensures_pure ⟨rfl, hr⟩)
  | cons name names ih =>
    cases fuel with
    | zero => exact rfl
    | succ fuel =>
      rw [moreParams]
      refine yields_if_peekIs hr (List.mem_singleton_self _) ?_
      refine ensures_bind (yields_next hr (by decide)) ?_
      rintro comma r₁ ⟨-, -, hr₁, -⟩
      refine ensures_bind (yields_expect hr₁ (by decide) (by decide)) ?_
      rintro param r₂ ⟨-, hparam, hr₂, -⟩
      refine ensures_bind (ih hr₂ fuel) ?_
      rintro ps r₃ ⟨rfl, hr₃⟩
      refine ensures_pure ⟨?_, hr₃⟩
      rw [hparam]

/-- Parameters are read with their parentheses. -/
theorem yields_params {names : List String}
    (hr : r.Shows (.fixed .leftParen :: (Node.paramPieces [] names ++ .fixed .rightParen :: rest)))
    (fuel : Nat) : Yields (params fuel) r fun ps r' => ps = names ∧ r'.Shows rest := by
  rw [params]
  refine ensures_bind (yields_expect hr (by decide) (by decide)) ?_
  rintro paren r₁ ⟨-, -, hr₁, -⟩
  have hend : ∀ (ps : List String) (r' : Reading), ps = names →
      r'.Shows (.fixed .rightParen :: rest) →
      Yields (do
        let _ ← expect [.rightParen]
        pure ps) r' fun ps r' => ps = names ∧ r'.Shows rest := by
    intro ps r' hps hr'
    refine ensures_bind (yields_expect hr' (by decide) (by decide)) ?_
    rintro close r'' ⟨-, -, hr'', -⟩
    exact ensures_pure ⟨hps, hr''⟩
  refine ensures_bind (yields_peekIs hr₁ _) ?_
  rintro b r₂ ⟨rfl, hb⟩
  dsimp only
  cases names with
  | nil =>
    rw [if_pos (hb.mpr (List.mem_singleton_self _))]
    exact hend [] r₂ rfl hr₁
  | cons name names =>
    have hnot : ¬ b = true := by
      rw [hb, List.mem_singleton]
      exact (by decide : Kind.identifier ≠ .rightParen)
    rw [if_neg hnot]
    refine ensures_bind (yields_expect hr₁ (by decide) (by decide)) ?_
    rintro param r₃ ⟨-, hparam, hr₃, -⟩
    refine ensures_bind (yields_moreParams hr₃ fuel) ?_
    rintro ps r₄ ⟨rfl, hr₄⟩
    refine hend (param.value :: ps) r₄ ?_ hr₄
    rw [hparam]

/-- The kinds of tokens that a statement can start with. -/
def statementKinds : List Kind :=
  [.letWord, .returnWord, .fnWord, .ifWord, .whileWord] ++ expressionKinds

/-- The lines of a statement start with its own depth and with one of these kinds. -/
theorem lines_start {n : Node} (h : n.isStatement = true) (hf : n.isFloatFree = true)
    (depth : Nat) : ∃ k value ps, n.lines depth = .indent depth :: .word k value :: ps ∧
      k ∈ statementKinds := by
  have hexpr : n.isExpr = true → n.lines depth = .indent depth :: n.ending depth →
      ∃ k value ps, n.lines depth = .indent depth :: .word k value :: ps ∧ k ∈ statementKinds := by
    intro he hlines
    obtain ⟨k, value, ps, hps, hk⟩ := starts_ending he hf depth
    exact ⟨k, value, ps, by rw [hlines, hps], List.mem_append_right _ hk⟩
  cases n with
  | declaration | ret | definition | loop => exact ⟨_, _, _, rfl, by decide⟩
  | assignment => exact ⟨_, _, _, rfl, by decide⟩
  | conditional tok bs =>
    cases bs with
    | guarded => exact ⟨_, _, _, rfl, by decide⟩
    | _ => simp [Node.isStatement, Branches.isGuarded] at h
  | _ => exact hexpr h rfl

/-- Statements of one depth start a line of that depth, which is no further branch. -/
theorem within_allLines {ns : List Node} (h : Node.areStatements ns = true)
    (hf : Node.areFloatFree ns = true) {depth : Nat} (hrest : Within depth rest) :
    Within depth (Node.allLines depth ns ++ rest) ∧
      (ns ≠ [] → Settles (Node.allLines depth ns ++ rest)) := by
  cases ns with
  | nil => exact ⟨hrest, fun hne => absurd rfl hne⟩
  | cons n ns =>
    rw [Node.areStatements, Bool.and_eq_true] at h
    rw [Node.areFloatFree, Bool.and_eq_true] at hf
    obtain ⟨k, value, ps, hps, hk⟩ := lines_start h.1 hf.1 depth
    have hkinds : ∀ k ∈ statementKinds, k ≠ .newline ∧ k ≠ .elifWord ∧ k ≠ .elseWord := by decide
    obtain ⟨hnewline, hbranch⟩ := hkinds k hk
    rw [Node.allLines, hps]
    exact ⟨.line (Nat.le_refl depth) hnewline, fun _ => hbranch⟩

/-- A readable body is read as a block. -/
theorem yields_block {ns : List Node} (hne : ns.isEmpty = false) (h : Node.areStatements ns = true)
    (hf : Node.areFloatFree ns = true) (hns : ReadableBody ns) {depth : Nat}
    (hrest : Within depth rest) (hopen : Node.lastEndsOpen ns = true → Settles rest)
    (hr : r.Shows (.fixed .colon :: .newline :: (Node.allLines (depth + 1) ns ++ rest)))
    (fuel : Nat) :
    Yields (block fuel) r fun b r' => Node.allBare b.2 = Node.allBare ns ∧ r'.ShowsLine rest := by
  cases fuel with
  | zero => exact rfl
  | succ fuel =>
    have hwithin := (within_allLines h hf (hrest.mono (Nat.le_succ depth))).1
    obtain ⟨k, value, ps, hps, hk⟩ : ∃ k value ps,
        Node.allLines (depth + 1) ns = .indent (depth + 1) :: .word k value :: ps ∧
        k ∈ statementKinds := by
      cases ns with
      | nil => exact absurd hne (by decide)
      | cons n ns =>
        rw [Node.areStatements, Bool.and_eq_true] at h
        rw [Node.areFloatFree, Bool.and_eq_true] at hf
        obtain ⟨k, value, ps, hps, hk⟩ := lines_start h.1 hf.1 (depth + 1)
        exact ⟨k, value, _, by rw [Node.allLines, hps, List.cons_append, List.cons_append], hk⟩
    rw [block]
    refine ensures_bind (yields_opening hr hwithin.nextKind_ne) ?_
    rintro - r₁ ⟨hr₁, -⟩
    have hline := hr₁
    rw [hps, List.cons_append, List.cons_append] at hline
    refine ensures_bind (yields_peek_line hline) ?_
    rintro first r₂ ⟨rfl, hfirst, hcolumn⟩
    have hend : ¬ first.kind = .endOfInput := by
      rw [hfirst]
      rintro rfl
      exact absurd hk (by decide)
    rw [if_neg hend, hcolumn]
    refine ensures_bind (hns fuel depth rest r₂ hr₁ hrest hopen) ?_
    rintro ms r₃ ⟨hms, hr₃⟩
    refine ensures_bind (P := fun _ r' => r'.ShowsLine rest) ?_ ?_
    · obtain ⟨pos, hzero, hshows⟩ := hr₃
      exact ⟨pos, hzero, hshows.front, hshows.final⟩
    · rintro - r₄ hr₄
      exact ensures_pure ⟨hms, hr₄⟩

/-- That there are no further statements can be read. -/
theorem readableBody_nil : ReadableBody [] := by
  intro fuel depth rest r hr hrest _
  cases fuel with
  | zero => exact rfl
  | succ fuel =>
    rw [statements]
    refine ensures_bind (yields_skipBreaks hr.shows hrest.nextKind_ne) ?_
    rintro - r₁ rfl
    refine ensures_bind (yields_peek_within hr hrest) ?_
    rintro tok r₂ ⟨rfl, -, hplace⟩
    have hstop : tok.kind = .endOfInput ∨ tok.pos.column ≠ 2 * ((depth + 1 : Nat) : Int) := by
      rcases hplace with hend | ⟨d, hd, hcolumn⟩
      · exact Or.inl hend
      · refine Or.inr ?_
        omega
    rw [if_pos hstop]
    exact ensures_pure ⟨rfl, hr⟩

/-- A body ends open if the statements behind its first one do. -/
theorem lastEndsOpen_cons {n : Node} {ns : List Node} (hne : ns ≠ []) :
    Node.lastEndsOpen (n :: ns) = Node.lastEndsOpen ns := by
  cases ns with
  | nil => exact absurd rfl hne
  | cons m ns => rfl

/-- A readable statement in front of a readable body is readable. -/
theorem readableBody_cons {n : Node} {ns : List Node} (hn : ReadableStatement n)
    (hns : ReadableBody ns) (h : Node.areStatements (n :: ns) = true)
    (hf : Node.areFloatFree (n :: ns) = true) : ReadableBody (n :: ns) := by
  intro fuel depth rest r hr hrest hopen
  rw [Node.areStatements, Bool.and_eq_true] at h
  rw [Node.areFloatFree, Bool.and_eq_true] at hf
  have hmore := within_allLines h.2 hf.2 (hrest.mono (Nat.le_succ depth))
  obtain ⟨k, value, ps, hps, hk⟩ := lines_start h.1 hf.1 (depth + 1)
  cases fuel with
  | zero => exact rfl
  | succ fuel =>
    rw [Node.allLines, List.append_assoc] at hr
    have hline := hr
    rw [hps, List.cons_append, List.cons_append] at hline
    have hkinds : ∀ k ∈ statementKinds, k ≠ .newline ∧ k ≠ .endOfInput := by decide
    rw [statements]
    refine ensures_bind (yields_skipBreaks hline.shows (hkinds k hk).1) ?_
    rintro - r₁ rfl
    refine ensures_bind (yields_peek_line hline) ?_
    rintro tok r₂ ⟨rfl, htok, hcolumn⟩
    have hgo : ¬ (tok.kind = .endOfInput ∨ tok.pos.column ≠ 2 * ((depth + 1 : Nat) : Int)) := by
      rintro (hend | hother)
      · exact (hkinds k hk).2 (htok.symm.trans hend)
      · exact hother hcolumn
    rw [if_neg hgo]
    -- what follows the first statement is the next one, or what follows them all
    have hsettles : n.endsOpen = true → Settles (Node.allLines (depth + 1) ns ++ rest) := by
      intro hn
      by_cases hne : ns = []
      · subst hne
        exact hopen hn
      · exact hmore.2 hne
    have hopen' : Node.lastEndsOpen ns = true → Settles rest := by
      intro hlast
      by_cases hne : ns = []
      · subst hne
        exact absurd hlast (by decide)
      · exact hopen (by rw [lastEndsOpen_cons hne, hlast])
    refine ensures_bind (hn fuel (depth + 1) _ r₂ hr hmore.1 hsettles) ?_
    rintro m r₃ ⟨hm, hr₃⟩
    refine ensures_bind (hns fuel depth rest r₃ hr₃ hrest hopen') ?_
    rintro ms r₄ ⟨hms, hr₄⟩
    refine ensures_pure ⟨?_, hr₄⟩
    rw [Node.allBare, Node.allBare, hm, hms]

/-- That there are no further branches can be read. -/
theorem readableBranches_done : ReadableBranches .done := by
  intro fuel depth rest r hr _ hopen
  obtain ⟨helif, helse⟩ := hopen rfl
  cases fuel with
  | zero => exact rfl
  | succ fuel =>
    rw [branches]
    refine yields_unless_peekIs hr.shows (fun h => helif (List.mem_singleton.mp h)) ?_
    refine yields_unless_peekIs hr.shows (fun h => helse (List.mem_singleton.mp h)) ?_
    exact ensures_pure ⟨rfl, hr⟩

/-- A last branch with a readable body is readable. -/
theorem readableBranches_otherwise {body : List Node} (hne : body.isEmpty = false)
    (h : Node.areStatements body = true) (hf : Node.areFloatFree body = true)
    (hbody : ReadableBody body) (bodyTok : Token) :
    ReadableBranches (.otherwise bodyTok body) := by
  intro fuel depth rest r hr hrest hopen
  have hshows := hr.shows.of_indent
  cases fuel with
  | zero => exact rfl
  | succ fuel =>
    rw [branches]
    refine yields_unless_peekIs hshows (by decide : Kind.elseWord ∉ [Kind.elifWord]) ?_
    refine yields_if_peekIs hshows (List.mem_singleton_self _) ?_
    refine ensures_bind (yields_next hshows (by decide)) ?_
    rintro word r₁ ⟨-, -, hr₁, -⟩
    refine ensures_bind (yields_block hne h hf hbody hrest hopen hr₁ fuel) ?_
    rintro ⟨tok, ms⟩ r₂ ⟨hms, hr₂⟩
    refine ensures_pure ⟨?_, hr₂⟩
    rw [Branches.bare, Branches.bare, hms]

/-- A condition, its body and the branches after it. -/
theorem yields_guarded {β : Type} {Q : β → Reading → Prop}
    {f : Node → Token × List Node → Branches → β} {condition : Node} {body : List Node}
    {bs : Branches} {bodyTok : Token}
    (h : (Branches.guarded condition bodyTok body bs).areWellFormed = true)
    (hf : (Branches.guarded condition bodyTok body bs).isFloatFree = true)
    (hcondition : Readable condition) (hbody : ReadableBody body) (hbs : ReadableBranches bs)
    {depth : Nat} (hrest : Within depth rest) (hopen : bs.endOpen = true → Settles rest)
    (hr : r.Shows (condition.part depth ++ (.fixed .colon :: .newline ::
      (Node.allLines (depth + 1) body ++ (bs.lines depth .elifWord ++ rest))))) (fuel : Nat)
    (hQ : ∀ c b cs r', c.bare = condition.bare → Node.allBare b.2 = Node.allBare body →
      cs.bare = bs.bare → r'.ShowsLine rest → Q (f c b cs) r') :
    Yields (do
      let c ← expression fuel levels
      let b ← block fuel
      let cs ← branches fuel
      pure (f c b cs)) r Q := by
  simp only [Branches.areWellFormed, Bool.and_eq_true, Bool.not_eq_true', Bool.or_eq_true] at h
  simp only [Branches.isFloatFree, Bool.and_eq_true] at hf
  obtain ⟨⟨⟨⟨-, hne⟩, hstatements⟩, hlast⟩, -⟩ := h
  have hwithin : Within depth (bs.lines depth .elifWord ++ rest) := by
    cases bs with
    | done => exact hrest
    | otherwise | guarded => exact .line (Nat.le_refl depth) (by decide)
  -- a body that ends in an open conditional has no branch after it
  have hsettles : Node.lastEndsOpen body = true → Settles (bs.lines depth .elifWord ++ rest) := by
    intro hbodyOpen
    rw [hbodyOpen] at hlast
    have hdone : bs.isDone = true := hlast.resolve_right (by decide)
    cases bs with
    | done => exact hopen rfl
    | otherwise | guarded => exact absurd hdone (by simp [Branches.isDone])
  refine ensures_bind (hcondition.part fuel depth _ r hr (closes_fixed (by decide) _)) ?_
  rintro c r₁ ⟨hc, hr₁, -⟩
  refine ensures_bind (yields_block hne hstatements hf.1.2 hbody hwithin hsettles hr₁ fuel) ?_
  rintro b r₂ ⟨hb, hr₂⟩
  refine ensures_bind (hbs fuel depth rest r₂ hr₂ hrest hopen) ?_
  rintro cs r₃ ⟨hcs, hr₃⟩
  exact ensures_pure (hQ c b cs r₃ hc hb hcs hr₃)

/-- A branch with a readable condition and body in front of readable branches is readable. -/
theorem readableBranches_guarded {condition : Node} {body : List Node} {bs : Branches}
    {bodyTok : Token} (h : (Branches.guarded condition bodyTok body bs).areWellFormed = true)
    (hf : (Branches.guarded condition bodyTok body bs).isFloatFree = true)
    (hcondition : Readable condition) (hbody : ReadableBody body) (hbs : ReadableBranches bs) :
    ReadableBranches (.guarded condition bodyTok body bs) := by
  intro fuel depth rest r hr hrest hopen
  simp only [Branches.lines, List.cons_append, List.append_assoc] at hr
  have hshows := hr.shows.of_indent
  cases fuel with
  | zero => exact rfl
  | succ fuel =>
    rw [branches]
    refine yields_if_peekIs hshows (List.mem_singleton_self _) ?_
    refine ensures_bind (yields_next hshows (by decide)) ?_
    rintro word r₁ ⟨-, -, hr₁, -⟩
    refine yields_guarded h hf hcondition hbody hbs hrest hopen hr₁ fuel ?_
    rintro c ⟨tok, ms⟩ cs r₂ hc hms hcs hr₂
    refine ⟨?_, hr₂⟩
    rw [Branches.bare, Branches.bare, hc, hms, hcs]

/-- A conditional with a readable condition, body and branches is readable. -/
theorem readable_conditional {condition : Node} {body : List Node} {bs : Branches}
    {bodyTok : Token} (h : (Branches.guarded condition bodyTok body bs).areWellFormed = true)
    (hf : (Branches.guarded condition bodyTok body bs).isFloatFree = true)
    (hcondition : Readable condition) (hbody : ReadableBody body) (hbs : ReadableBranches bs)
    (tok : Token) : ReadableStatement (.conditional tok (.guarded condition bodyTok body bs)) := by
  intro fuel depth rest r hr hrest hopen
  simp only [Node.lines, Branches.lines, List.cons_append, List.append_assoc] at hr
  cases fuel with
  | zero => exact rfl
  | succ fuel =>
    rw [statement]
    refine ensures_bind (yields_peek_line hr) ?_
    rintro first r₁ ⟨rfl, hfirst, -⟩
    simp only [hfirst]
    refine ensures_bind (yields_expect hr.shows.of_indent (by decide) (by decide)) ?_
    rintro word r₂ ⟨-, -, hr₂, -⟩
    refine yields_guarded h hf hcondition hbody hbs hrest hopen hr₂ fuel ?_
    rintro c ⟨bodyTok', ms⟩ cs r₃ hc hms hcs hr₃
    refine ⟨?_, hr₃⟩
    rw [Node.bare, Node.bare, Branches.bare, Branches.bare, hc, hms, hcs]

/-- A loop with a readable condition and body is readable. -/
theorem readable_loop {condition : Node} {body : List Node} (hne : body.isEmpty = false)
    (h : Node.areStatements body = true) (hf : Node.areFloatFree body = true)
    (hcondition : Readable condition) (hbody : ReadableBody body) (tok bodyTok : Token) :
    ReadableStatement (.loop tok condition bodyTok body) := by
  intro fuel depth rest r hr hrest hopen
  simp only [Node.lines, List.cons_append, List.append_assoc] at hr
  cases fuel with
  | zero => exact rfl
  | succ fuel =>
    rw [statement]
    refine ensures_bind (yields_peek_line hr) ?_
    rintro first r₁ ⟨rfl, hfirst, -⟩
    simp only [hfirst]
    refine ensures_bind (yields_expect hr.shows.of_indent (by decide) (by decide)) ?_
    rintro word r₂ ⟨-, -, hr₂, -⟩
    refine ensures_bind (hcondition.part fuel depth _ r₂ hr₂ (closes_fixed (by decide) _)) ?_
    rintro c r₃ ⟨hc, hr₃, -⟩
    refine ensures_bind (yields_block hne h hf hbody hrest hopen hr₃ fuel) ?_
    rintro ⟨bodyTok', ms⟩ r₄ ⟨hms, hr₄⟩
    refine ensures_pure ⟨?_, hr₄⟩
    rw [Node.bare, Node.bare, hc, hms]

/-- A definition with a readable body is readable. -/
theorem readable_definition {body : List Node} (hne : body.isEmpty = false)
    (h : Node.areStatements body = true) (hf : Node.areFloatFree body = true)
    (hbody : ReadableBody body) (tok bodyTok : Token) (name : String) (params : List String) :
    ReadableStatement (.definition tok name params bodyTok body) := by
  intro fuel depth rest r hr hrest hopen
  simp only [Node.lines, List.cons_append, List.append_assoc] at hr
  cases fuel with
  | zero => exact rfl
  | succ fuel =>
    rw [statement]
    refine ensures_bind (yields_peek_line hr) ?_
    rintro first r₁ ⟨rfl, hfirst, -⟩
    simp only [hfirst]
    refine ensures_bind (yields_expect hr.shows.of_indent (by decide) (by decide)) ?_
    rintro word r₂ ⟨-, -, hr₂, -⟩
    refine ensures_bind (yields_expect hr₂ (by decide) (by decide)) ?_
    rintro ident r₃ ⟨-, hident, hr₃, -⟩
    refine ensures_bind (yields_params hr₃ fuel) ?_
    rintro names r₄ ⟨rfl, hr₄⟩
    refine ensures_bind (yields_block hne h hf hbody hrest hopen hr₄ fuel) ?_
    rintro ⟨bodyTok', ms⟩ r₅ ⟨hms, hr₅⟩
    refine ensures_pure ⟨?_, hr₅⟩
    rw [Node.bare, Node.bare, hident, hms]

/-! ## All statements -/

mutual

/-- Every well-formed statement without points in its numbers is read back from its lines. -/
theorem readableStatement (n : Node) (h : n.isStatement = true) (hf : n.isFloatFree = true) :
    ReadableStatement n := by
  have hexpr : n.isExpr = true → (∀ depth, n.lines depth = .indent depth :: n.ending depth) →
      ReadableStatement n := fun he hlines =>
    readable_expressionStatement (readable n he hf) (starts_ending he hf) hlines
  cases n with
  | declaration tok name value =>
    rw [Node.isStatement, Bool.and_eq_true, Bool.or_eq_true] at h
    rw [Node.isFloatFree] at hf
    exact readable_declaration (h.2.imp id fun he => readable value he hf) tok name
  | assignment tok name value =>
    rw [Node.isStatement, Bool.and_eq_true] at h
    rw [Node.isFloatFree] at hf
    exact readable_assignment (readable value h.2 hf) tok name
  | ret tok value =>
    rw [Node.isStatement, Bool.or_eq_true] at h
    rw [Node.isFloatFree] at hf
    refine readable_ret (h.imp id fun he => readable value he hf) (fun hnil => ?_) tok
    exact starts_ending (h.resolve_left (ne_true_of_eq_false hnil)) hf
  | definition tok name params bodyTok body =>
    simp only [Node.isStatement, Bool.and_eq_true, Bool.not_eq_true'] at h
    rw [Node.isFloatFree] at hf
    exact readable_definition h.1.2 h.2 hf (readableBody body h.2 hf) tok bodyTok name params
  | conditional tok bs =>
    rw [Node.isStatement, Bool.and_eq_true] at h
    rw [Node.isFloatFree] at hf
    cases bs with
    | guarded condition bodyTok body rest =>
      have hparts := h.2
      have hfree := hf
      simp only [Branches.areWellFormed, Bool.and_eq_true] at hparts
      simp only [Branches.isFloatFree, Bool.and_eq_true] at hfree
      exact readable_conditional h.2 hf (readable condition hparts.1.1.1.1 hfree.1.1)
        (readableBody body hparts.1.1.2 hfree.1.2) (readableBranches rest hparts.2 hfree.2) tok
    | _ => simp [Branches.isGuarded] at h
  | loop tok condition bodyTok body =>
    simp only [Node.isStatement, Bool.and_eq_true, Bool.not_eq_true'] at h
    rw [Node.isFloatFree, Bool.and_eq_true] at hf
    exact readable_loop h.1.2 h.2 hf.2 (readable condition h.1.1 hf.1)
      (readableBody body h.2 hf.2) tok bodyTok
  | _ => exact hexpr h fun _ => rfl

/-- Well-formed statements without doubles are readable as a body. -/
theorem readableBody (ns : List Node) (h : Node.areStatements ns = true)
    (hf : Node.areFloatFree ns = true) : ReadableBody ns := by
  cases ns with
  | nil => exact readableBody_nil
  | cons n ns =>
    have hparts := h
    have hfree := hf
    rw [Node.areStatements, Bool.and_eq_true] at hparts
    rw [Node.areFloatFree, Bool.and_eq_true] at hfree
    exact readableBody_cons (readableStatement n hparts.1 hfree.1)
      (readableBody ns hparts.2 hfree.2) h hf

/-- Well-formed branches without doubles are readable. -/
theorem readableBranches (bs : Branches) (h : bs.areWellFormed = true)
    (hf : bs.isFloatFree = true) : ReadableBranches bs := by
  cases bs with
  | done => exact readableBranches_done
  | otherwise bodyTok body =>
    rw [Branches.areWellFormed, Bool.and_eq_true, Bool.not_eq_true'] at h
    rw [Branches.isFloatFree] at hf
    exact readableBranches_otherwise h.1 h.2 hf (readableBody body h.2 hf) bodyTok
  | guarded condition bodyTok body rest =>
    have hparts := h
    have hfree := hf
    simp only [Branches.areWellFormed, Bool.and_eq_true] at hparts
    simp only [Branches.isFloatFree, Bool.and_eq_true] at hfree
    exact readableBranches_guarded h hf (readable condition hparts.1.1.1.1 hfree.1.1)
      (readableBody body hparts.1.1.2 hfree.1.2) (readableBranches rest hparts.2 hfree.2)

end

/-- Well-formed statements without doubles are read as a program. -/
theorem yields_program {ns : List Node} (h : Node.areStatements ns = true)
    (hf : Node.areFloatFree ns = true) (hr : r.ShowsLine (Node.allLines 0 ns)) (fuel : Nat) :
    Yields (program fuel) r fun ms _ => Node.allBare ms = Node.allBare ns := by
  induction ns generalizing r fuel with
  | nil =>
    cases fuel with
    | zero => exact rfl
    | succ fuel =>
      rw [program]
      refine ensures_bind (yields_skipBreaks hr.shows (by decide)) ?_
      rintro - r₁ rfl
      exact yields_if_peekIs hr.shows (List.mem_singleton_self _) (ensures_pure rfl)
  | cons n ns ih =>
    rw [Node.areStatements, Bool.and_eq_true] at h
    rw [Node.areFloatFree, Bool.and_eq_true] at hf
    cases fuel with
    | zero => exact rfl
    | succ fuel =>
      -- what follows the statement is indented no deeper and starts no branch
      have hmore : Within 0 (Node.allLines 0 ns) ∧ (n.endsOpen = true → Settles (Node.allLines 0 ns)) := by
        have hall := within_allLines h.2 hf.2 (.nil : Within 0 [])
        rw [List.append_nil] at hall
        refine ⟨hall.1, fun _ => ?_⟩
        by_cases hne : ns = []
        · subst hne
          exact ⟨by decide, by decide⟩
        · exact hall.2 hne
      obtain ⟨k, value, ps, hps, hk⟩ := lines_start h.1 hf.1 0
      have hkinds : ∀ k ∈ statementKinds, k ≠ .newline ∧ k ≠ .endOfInput := by decide
      rw [Node.allLines] at hr
      have hline := hr.shows
      rw [hps, List.cons_append, List.cons_append] at hline
      rw [program]
      refine ensures_bind (yields_skipBreaks hline (hkinds k hk).1) ?_
      rintro - r₁ rfl
      refine yields_unless_peekIs hline (fun h => (hkinds k hk).2 (List.mem_singleton.mp h)) ?_
      refine ensures_bind (readableStatement n h.1 hf.1 fuel 0 _ r₁ hr hmore.1 hmore.2) ?_
      rintro m r₂ ⟨hm, hr₂⟩
      refine ensures_bind (ih h.2 hf.2 hr₂ fuel) ?_
      rintro ms r₃ hms
      refine ensures_pure ?_
      rw [Node.allBare, Node.allBare, hm, hms]

end Grammar

/-- What the grammar yields on a text unless its fuel is used up, it does yield: reading gives a tree
or a fault on every text. -/
theorem Parse.ofText_of_yields {t : Text} {P : List Node → Reading → Prop}
    (h : ∀ fuel, Grammar.Yields (Grammar.program fuel) (.ofStream (.ofText t)) P) :
    ∃ ns left, P ns left ∧ (Parse.ofText t).outcome = .ok (.block .origin ns) := by
  have hread := h (fuelFor (TokenStream.ofText t).front.length)
  have hsound := Parse.ofText_sound t
  unfold Grammar.Yields Grammar.Ensures at hread
  unfold Parse.ofText Parse.ofStream at hsound ⊢
  cases hr : Grammar.program (fuelFor (TokenStream.ofText t).front.length)
      (Reading.ofStream (.ofText t)) with
  | ok ns left =>
    rw [hr] at hread
    exact ⟨ns, left, hread, rfl⟩
  | error e left =>
    rw [hr] at hread hsound
    obtain ⟨f, hfault⟩ := hsound
    rw [hread] at hfault
    exact absurd hfault (by simp)

/-- A well-formed program without points in its numbers is read back from its rendering. -/
theorem Parse.ofText_rendering {tree : Node} (h : tree.isProgram = true)
    (hf : tree.isFloatFree = true) :
    ∃ tree', (Parse.ofText tree.rendering).outcome = .ok tree' ∧ tree'.bare = tree.bare := by
  cases tree with
  | block tok ns =>
    rw [Node.isProgram] at h
    rw [Node.isFloatFree] at hf
    obtain ⟨finish, hstream⟩ := TokenStream.ofText_written (Node.allLines 0 ns)
      (Node.allProper_allLines 0 ns h hf)
    have hline : (Reading.ofStream (.ofText (Node.block tok ns).rendering)).ShowsLine
        (Node.allLines 0 ns) := by
      refine ⟨.start, rfl, ?_, ⟨.endOfInput, "", finish⟩, ?_, rfl⟩
      · exact congrArg TokenStream.front hstream
      · exact congrArg TokenStream.final hstream
    obtain ⟨ms, left, hms, hread⟩ := Parse.ofText_of_yields fun fuel =>
      Grammar.yields_program h hf hline fuel
    refine ⟨_, hread, ?_⟩
    rw [Node.bare, Node.bare, hms]
  | _ => simp [Node.isProgram] at h

/-- The trees of sources are exactly the well-formed programs, up to the places of their tokens:
every tree that is read is well-formed, and every well-formed program without points in its numbers
is read from its rendering. -/
theorem sources_read_exactly_programs :
    (∀ (text : Text) (tree : Node), (Parse.ofText text).outcome = .ok tree →
      tree.isProgram = true) ∧
    ∀ tree : Node, tree.isProgram = true → tree.isFloatFree = true →
      ∃ tree', (Parse.ofText tree.rendering).outcome = .ok tree' ∧ tree'.bare = tree.bare := by
  refine ⟨?_, fun tree h hf => Parse.ofText_rendering h hf⟩
  intro text tree htree
  have hsound := Parse.ofText_sound text
  rw [htree] at hsound
  exact hsound

/-- A selection in front of an operator, in the condition of a conditional whose first body ends in
another one, is read back from its rendering. -/
theorem sources_read_exactly_programs_conditional :
    let choice : Node := .select .origin (.reference .origin "x")
      (.pattern .origin (.integer .origin 1) (.string .origin [0xC3, 0xA9])
        (.wildcard .origin (.unary .origin .minus (.reference .origin "y")) .done))
    let inner : Node := .conditional .origin (.guarded (.call .origin "f" [.boolean .origin true])
      .origin [.declaration .origin "z" choice] (.otherwise .origin [.ret .origin (.nil .origin)]))
    let tree : Node := .block .origin [.conditional .origin
      (.guarded (.binary .origin .equal choice (.reference .origin "z")) .origin [inner]
        (.guarded (.reference .origin "z") .origin [.assignment .origin "z" choice] .done))]
    tree.isProgram = true ∧ tree.isFloatFree = true ∧
      ∃ tree', (Parse.ofText tree.rendering).outcome = .ok tree' ∧ tree'.bare = tree.bare :=
  ⟨by decide +kernel, by decide +kernel,
    sources_read_exactly_programs.2 _ (by decide +kernel) (by decide +kernel)⟩

end Offside
