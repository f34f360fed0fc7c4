import Offside.Proofs.Tree.ExpressionSound

/-!
# Programs that are read are well-formed

The pieces of the grammar for statements give well-formed statements or stop with a fault, with
enough fuel for the tokens to come. A statement that ends in an open conditional is followed by a
token that is neither a line break nor the word of a further branch, which is why no further branch
can be missing the conditional it belongs to. The conclusion for whole texts is
`Parse.ofText_sound`.
-/

set_option autoImplicit false

namespace Offside

namespace Reading

/-- The next token is no line break. -/
def Skipped (r : Reading) : Prop := ∃ t, r.next? = some t ∧ t.isBreak = false

/-- The next token is neither a line break nor the word of a further branch. -/
def Settled (r : Reading) : Prop :=
  ∃ t, r.next? = some t ∧ t.isBreak = false ∧ t.kind ≠ .elifWord ∧ t.kind ≠ .elseWord

/-- Skipping line breaks changes nothing where none is next. -/
theorem Skipped.dropWhile_eq {r : Reading} (h : r.Skipped) :
    r.front.dropWhile Token.isBreak = r.front := by
  obtain ⟨t, ht, hbreak⟩ := h
  cases hf : r.front with
  | nil => rfl
  | cons u rest =>
    unfold next? at ht
    rw [hf] at ht
    injection ht with hu
    rw [List.dropWhile_cons_of_neg]
    rw [hu, hbreak]
    exact Bool.false_ne_true

/-- A reading that is settled has no line break next. -/
theorem Settled.skipped {r : Reading} (h : r.Settled) : r.Skipped := by
  obtain ⟨t, ht, hbreak, -⟩ := h
  exact ⟨t, ht, hbreak⟩

/-- The next token depends on the tokens that are left alone. -/
theorem next?_congr {r r' : Reading} (hfront : r'.front = r.front) (hfinal : r'.final = r.final) :
    r'.next? = r.next? := by
  unfold next?
  rw [hfront, hfinal]

end Reading

/-- An expression does not end with branches that could go on. -/
theorem Node.endsOpen_of_isExpr {n : Node} (h : n.isExpr = true) : n.endsOpen = false := by
  cases n <;> first | rfl | simp [Node.isExpr] at h

/-- An expression is a statement. -/
theorem Node.isStatement_of_isExpr {n : Node} (h : n.isExpr = true) : n.isStatement = true := by
  cases n <;> first | exact h | simp [Node.isExpr] at h

namespace Grammar

open Reading

variable {r : Reading} {fuel : Nat}

/-! ## Statements of one line -/

/-- Further parameters are names, and have enough fuel. -/
theorem sound_moreParams (hr : r.Legal) (hf : r.front.length + 1 ≤ fuel) :
    Ensures Halt.IsFault (moreParams fuel) r fun names r' =>
      names.all isName = true ∧ r.Leads r' := by
  induction fuel generalizing r with
  | zero => omega
  | succ fuel ih =>
    rw [moreParams]
    refine ensures_bind (ensures_peekIs hr _) ?_
    rintro b r₁ ⟨rfl, t, ht, rfl⟩
    split
    · rename_i hone
      have hcomma : t.kind = .comma := isOneOf_singleton.mp hone
      refine ensures_bind (ensures_next hr ht (by rw [hcomma]; decide)) ?_
      rintro comma r₂ ⟨-, htake⟩
      have hr₂ := htake.advances.legal hr
      have hless₂ := htake.advances.fewer
      refine ensures_bind (ensures_expect hr₂ (by decide)) ?_
      rintro param r₃ ⟨hparam, htake₃⟩
      have hless₃ := htake₃.advances.fewer
      have hname : isName param.value = true :=
        (htake₃.legal hr₂).named (List.mem_singleton.mp hparam)
      refine ensures_bind (ih (htake₃.advances.legal hr₂) (by omega)) ?_
      rintro rest r₄ ⟨hrest, hlead⟩
      refine ensures_pure ⟨by rw [List.all_cons, hname, hrest]; rfl, ?_⟩
      exact (htake.advances.toLeads.trans htake₃.advances.toLeads).trans hlead
    · exact ensures_pure ⟨rfl, .refl _⟩

/-- Parameters are names, and have enough fuel. -/
theorem sound_params (hr : r.Legal) (hf : r.front.length + 1 ≤ fuel) :
    Ensures Halt.IsFault (params fuel) r fun names r' =>
      names.all isName = true ∧ r.Leads r' := by
  rw [params]
  refine ensures_bind (ensures_expect hr (by decide)) ?_
  rintro paren r₁ ⟨-, htake⟩
  have hr₁ := htake.advances.legal hr
  have hless₁ := htake.advances.fewer
  refine ensures_bind (ensures_peekIs hr₁ _) ?_
  rintro b r₂ ⟨rfl, -⟩
  have hclose : ∀ (names : List String) (r' : Reading), names.all isName = true → r.Leads r' →
      Ensures Halt.IsFault (do
        let _ ← expect [.rightParen]
        pure names) r' fun names r' => names.all isName = true ∧ r.Leads r' := by
    intro names r' hnames hlead
    refine ensures_bind (ensures_expect (hlead.legal hr) (by decide)) ?_
    rintro close r₃ ⟨-, htake₃⟩
    exact ensures_pure ⟨hnames, hlead.trans htake₃.advances.toLeads⟩
  dsimp only
  split
  · exact hclose [] r₂ rfl htake.advances.toLeads
  · refine ensures_bind (ensures_expect hr₁ (by decide)) ?_
    rintro param r₃ ⟨hparam, htake₃⟩
    have hless₃ := htake₃.advances.fewer
    have hname : isName param.value = true :=
      (htake₃.legal hr₁).named (List.mem_singleton.mp hparam)
    refine ensures_bind (sound_moreParams (htake₃.advances.legal hr₁) (by omega)) ?_
    rintro rest r₄ ⟨hrest, hlead⟩
    refine hclose (param.value :: rest) r₄ (by rw [List.all_cons, hname, hrest]; rfl) ?_
    exact (htake.advances.toLeads.trans htake₃.advances.toLeads).trans hlead

/-- A declaration is a well-formed statement, and has enough fuel. -/
theorem sound_declaration (hr : r.Legal) (hf : 16 * r.front.length + 6 ≤ fuel) :
    Ensures Halt.IsFault (declaration fuel) r fun n r' =>
      n.isStatement = true ∧ n.endsOpen = false ∧ r.Advances r' := by
  rw [declaration]
  refine ensures_bind (ensures_expect hr (by decide)) ?_
  rintro tok r₁ ⟨-, htake⟩
  have hr₁ := htake.advances.legal hr
  refine ensures_bind (ensures_expect hr₁ (by decide)) ?_
  rintro name r₂ ⟨hident, htake₂⟩
  have hr₂ := htake₂.advances.legal hr₁
  have hname : isName name.value = true := (htake₂.legal hr₁).named (List.mem_singleton.mp hident)
  have hadv := htake.advances.then_leads htake₂.advances.toLeads
  have hless₁ := htake.advances.fewer
  have hless₂ := htake₂.advances.fewer
  refine ensures_bind (ensures_peekIs hr₂ _) ?_
  rintro b r₃ ⟨rfl, t, ht, rfl⟩
  split
  · rename_i hone
    have hassign : t.kind = .assign := isOneOf_singleton.mp hone
    refine ensures_bind (ensures_next hr₂ ht (by rw [hassign]; decide)) ?_
    rintro sign r₄ ⟨-, htake₄⟩
    have hless₄ := htake₄.advances.fewer
    refine ensures_bind ((expressionsSound fuel).whole (htake₄.advances.legal hr₂) (by omega)) ?_
    rintro value r₅ ⟨hvalue, hadv₅⟩
    refine ensures_pure ⟨by simp [Node.isStatement, hname, hvalue], rfl, ?_⟩
    exact (hadv.then_leads htake₄.advances.toLeads).then_leads hadv₅.toLeads
  · exact ensures_pure ⟨by simp [Node.isStatement, Node.isNil, hname], rfl, hadv⟩

/-- A `return` is a well-formed statement, and has enough fuel. -/
theorem sound_ret (hr : r.Legal) {first : Token} (hfirst : r.next? = some first)
    (hkind : first.kind = .returnWord) (hf : 16 * r.front.length + 6 ≤ fuel) :
    Ensures Halt.IsFault (ret fuel) r fun n r' =>
      n.isStatement = true ∧ n.endsOpen = false ∧ r.Advances r' := by
  rw [ret]
  refine ensures_bind (ensures_next hr hfirst (by rw [hkind]; decide)) ?_
  rintro tok r₁ ⟨-, htake⟩
  have hr₁ := htake.advances.legal hr
  have hless₁ := htake.advances.fewer
  refine ensures_bind (ensures_peekIs hr₁ _) ?_
  rintro b r₂ ⟨rfl, -⟩
  split
  · exact ensures_pure ⟨rfl, rfl, htake.advances⟩
  · refine ensures_bind ((expressionsSound fuel).whole hr₁ (by omega)) ?_
    rintro value r₃ ⟨hvalue, hadv⟩
    refine ensures_pure ⟨by simp [Node.isStatement, hvalue], rfl, ?_⟩
    exact htake.advances.then_leads hadv.toLeads

/-- An expression or an assignment is a well-formed statement, and has enough fuel. -/
theorem sound_expressionStatement (hr : r.Legal) (hf : 16 * r.front.length + 6 ≤ fuel) :
    Ensures Halt.IsFault (expressionStatement fuel) r fun n r' =>
      n.isStatement = true ∧ n.endsOpen = false ∧ r.Advances r' := by
  rw [expressionStatement]
  refine ensures_bind ((expressionsSound fuel).whole hr hf) ?_
  rintro target r₁ ⟨htarget, hadv⟩
  have hr₁ := hadv.legal hr
  have hless₁ := hadv.fewer
  refine ensures_bind (ensures_continuesWith hr₁ _) ?_
  rintro b r₂ ⟨rfl, hb⟩
  split
  · rename_i htrue
    obtain ⟨t, ht, hone⟩ := hb htrue
    have hassign : t.kind = .assign := isOneOf_singleton.mp hone
    refine ensures_bind (ensures_next hr₁ ht (by rw [hassign]; decide)) ?_
    rintro sign r₃ ⟨-, htake⟩
    have hless₃ := htake.advances.fewer
    split
    · refine ensures_bind ((expressionsSound fuel).whole (htake.advances.legal hr₁) (by omega)) ?_
      rintro value r₄ ⟨hvalue, hadv₄⟩
      rw [Node.isExpr] at htarget
      refine ensures_pure ⟨by simp [Node.isStatement, htarget, hvalue], rfl, ?_⟩
      exact (hadv.then_leads htake.advances.toLeads).then_leads hadv₄.toLeads
    · exact ⟨_, rfl⟩
  · exact ensures_pure ⟨Node.isStatement_of_isExpr htarget, Node.endsOpen_of_isExpr htarget, hadv⟩

/-- A statement of one line is well formed, and has enough fuel. -/
theorem sound_simpleStatement (hr : r.Legal) {first : Token} (hfirst : r.next? = some first)
    (hf : 16 * r.front.length + 6 ≤ fuel) :
    Ensures Halt.IsFault (simpleStatement fuel first.kind) r fun n r' =>
      n.isStatement = true ∧ n.endsOpen = false ∧ r.Advances r' := by
  have hend : ∀ (p : Grammar Node), Ensures Halt.IsFault p r (fun n r' =>
        n.isStatement = true ∧ n.endsOpen = false ∧ r.Advances r') →
      Ensures Halt.IsFault (do
        let n ← p
        endLine
        pure n) r fun n r' => n.isStatement = true ∧ n.endsOpen = false ∧ r.Advances r' := by
    intro p hp
    refine ensures_bind hp ?_
    rintro n r₁ ⟨hn, hopen, hadv⟩
    refine ensures_bind (ensures_endLine (hadv.legal hr)) ?_
    rintro - r₂ hlead
    exact ensures_pure ⟨hn, hopen, hadv.then_leads hlead⟩
  unfold simpleStatement
  dsimp only
  split
  · exact hend _ (sound_declaration hr hf)
  · split
    · rename_i hkind
      exact hend _ (sound_ret hr hfirst hkind hf)
    · exact hend _ (sound_expressionStatement hr hf)

/-! ## Blocks and branches -/

/-- What the pieces of the grammar for statements ensure with the given fuel. -/
structure StatementsSound (fuel : Nat) : Prop where
  statement : ∀ (r : Reading), r.Legal → 16 * r.front.length + 8 ≤ fuel →
    Ensures Halt.IsFault (statement fuel) r fun n r' =>
      n.isStatement = true ∧ r.Advances r' ∧ (n.endsOpen = true → r'.Settled)
  block : ∀ (r : Reading), r.Legal → 16 * r.front.length + 1 ≤ fuel →
    Ensures Halt.IsFault (block fuel) r fun b r' =>
      b.2.isEmpty = false ∧ Node.areStatements b.2 = true ∧ r.Advances r' ∧ r'.Skipped ∧
        (Node.lastEndsOpen b.2 = true → r'.Settled)
  statements : ∀ (column : Int) (r : Reading), r.Legal → 16 * r.front.length + 9 ≤ fuel →
    Ensures Halt.IsFault (statements fuel column) r fun body r' =>
      Node.areStatements body = true ∧ r.Leads r' ∧ r'.Skipped ∧
        (Node.lastEndsOpen body = true → r'.Settled) ∧
        (body = [] → r'.front = r.front.dropWhile Token.isBreak ∧
          ∃ t, r'.next? = some t ∧ (t.kind = .endOfInput ∨ t.pos.column ≠ column))
  branches : ∀ (r : Reading), r.Legal → r.Skipped → 16 * r.front.length + 1 ≤ fuel →
    Ensures Halt.IsFault (branches fuel) r fun bs r' =>
      bs.areWellFormed = true ∧ r.Leads r' ∧ (bs.endOpen = true → r'.Settled) ∧
        (r.Settled → bs.isDone = true)

/-- A body that ends in an open conditional has no branch after it. -/
theorem isDone_or_not_lastEndsOpen {body : List Node} {bs : Branches}
    (hopen : Node.lastEndsOpen body = true → r.Settled) (hdone : r.Settled → bs.isDone = true) :
    (bs.isDone || !Node.lastEndsOpen body) = true := by
  cases hlast : Node.lastEndsOpen body with
  | false => simp
  | true => simp [hdone (hopen hlast)]

section Step

variable (ih : StatementsSound fuel)
include ih

/-- Statements in a column are well formed and have enough fuel; there are none only if another
column or the end follows. -/
theorem sound_statements (column : Int) (hr : r.Legal)
    (hf : 16 * r.front.length + 9 ≤ fuel + 1) :
    Ensures Halt.IsFault (statements (fuel + 1) column) r fun body r' =>
      Node.areStatements body = true ∧ r.Leads r' ∧ r'.Skipped ∧
        (Node.lastEndsOpen body = true → r'.Settled) ∧
        (body = [] → r'.front = r.front.dropWhile Token.isBreak ∧
          ∃ t, r'.next? = some t ∧ (t.kind = .endOfInput ∨ t.pos.column ≠ column)) := by
  rw [statements]
  refine ensures_bind (ensures_skipBreaks hr) ?_
  rintro - r₁ ⟨hfront, hfinal, hskipped⟩
  have hskip : r.Leads r₁ := ⟨by rw [hfront]; exact List.dropWhile_suffix _, hfinal⟩
  have hr₁ := hskip.legal hr
  have hless₁ := hskip.length_le
  refine ensures_bind (ensures_peek hr₁) ?_
  rintro tok r₂ ⟨rfl, htok⟩
  split
  · rename_i hstop
    exact ensures_pure ⟨rfl, hskip, hskipped, fun h => absurd h (by decide),
      fun _ => ⟨hfront, tok, htok, hstop⟩⟩
  · refine ensures_bind (ih.statement r₂ hr₁ (by omega)) ?_
    rintro first r₃ ⟨hfirst, hadv, hopen⟩
    have hr₃ := hadv.legal hr₁
    have hless₃ := hadv.fewer
    refine ensures_bind (ih.statements column r₃ hr₃ (by omega)) ?_
    rintro rest r₄ ⟨hrest, hlead, hskipped₄, hopen₄, hnil⟩
    refine ensures_pure ⟨by simp [Node.areStatements, hfirst, hrest],
      (hskip.trans hadv.toLeads).trans hlead, hskipped₄, ?_, fun h => absurd h (by simp)⟩
    cases rest with
    | cons second more => exact hopen₄
    | nil =>
      -- after the last statement nothing was skipped, so what follows it is still next
      intro hlast
      have hsettled := hopen hlast
      obtain ⟨hsame, -⟩ := hnil rfl
      rw [hsettled.skipped.dropWhile_eq] at hsame
      unfold Settled at hsettled ⊢
      rw [next?_congr hsame hlead.final]
      exact hsettled

/-- A block is not empty, its statements are well formed, and it has enough fuel. -/
theorem sound_block (hr : r.Legal) (hf : 16 * r.front.length + 1 ≤ fuel + 1) :
    Ensures Halt.IsFault (block (fuel + 1)) r fun b r' =>
      b.2.isEmpty = false ∧ Node.areStatements b.2 = true ∧ r.Advances r' ∧ r'.Skipped ∧
        (Node.lastEndsOpen b.2 = true → r'.Settled) := by
  rw [block]
  refine ensures_bind (ensures_opening hr) ?_
  rintro - r₁ ⟨hlead, hless, hskipped⟩
  have hr₁ := hlead.legal hr
  refine ensures_bind (ensures_peek hr₁) ?_
  rintro first r₂ ⟨rfl, hfirst⟩
  split
  · exact ⟨_, rfl⟩
  · rename_i hend
    refine ensures_bind (ih.statements first.pos.column r₂ hr₁ (by omega)) ?_
    rintro body r₃ ⟨hbody, hlead₃, hskipped₃, hopen, hnil⟩
    have hnonempty : body.isEmpty = false := by
      cases body with
      | cons n rest => rfl
      | nil =>
        obtain ⟨hsame, t, ht, hstop⟩ := hnil rfl
        rw [Skipped.dropWhile_eq hskipped] at hsame
        rw [next?_congr hsame hlead₃.final, hfirst] at ht
        injection ht with heq
        rw [← heq] at hstop
        exact absurd hstop (by simp [hend])
    refine ensures_bind (P := fun _ r' => r' = { r₃ with
      notes := ⟨first.pos, body.length⟩ :: r₃.notes }) rfl ?_
    rintro - r₄ rfl
    refine ensures_pure ⟨hnonempty, hbody, ⟨⟨?_, ?_⟩, ?_⟩, hskipped₃, hopen⟩
    · exact (hlead.trans hlead₃).front
    · exact (hlead.trans hlead₃).final
    · have hle := hlead₃.length_le
      show r₃.front.length < r.front.length
      omega

/-- A condition and its body. -/
theorem sound_guarded {β : Type} {Q : β → Reading → Prop} {f : Node → Token × List Node → Grammar β}
    (hr : r.Legal) (hf : 16 * r.front.length + 6 ≤ fuel)
    (h : ∀ condition b r', condition.isExpr = true → b.2.isEmpty = false →
      Node.areStatements b.2 = true → r.Advances r' → r'.Skipped →
      (Node.lastEndsOpen b.2 = true → r'.Settled) → Ensures Halt.IsFault (f condition b) r' Q) :
    Ensures Halt.IsFault (do
      let condition ← expression fuel levels
      let b ← Grammar.block fuel
      f condition b) r Q := by
  refine ensures_bind ((expressionsSound fuel).whole hr hf) ?_
  rintro condition r₁ ⟨hcondition, hadv⟩
  have hless := hadv.fewer
  refine ensures_bind (ih.block r₁ (hadv.legal hr) (by omega)) ?_
  rintro b r₂ ⟨hnonempty, hbody, hadv₂, hskipped, hopen⟩
  exact h condition b r₂ hcondition hnonempty hbody (hadv.then_leads hadv₂.toLeads) hskipped hopen

/-- Branches are well formed and have enough fuel; there are none if nothing that starts one
follows. -/
theorem sound_branches (hr : r.Legal) (hskipped : r.Skipped)
    (hf : 16 * r.front.length + 1 ≤ fuel + 1) :
    Ensures Halt.IsFault (branches (fuel + 1)) r fun bs r' =>
      bs.areWellFormed = true ∧ r.Leads r' ∧ (bs.endOpen = true → r'.Settled) ∧
        (r.Settled → bs.isDone = true) := by
  rw [branches]
  refine ensures_bind (ensures_peekIs hr _) ?_
  rintro b r₁ ⟨rfl, t, ht, rfl⟩
  have hnot : ∀ k, t.kind = k → k = .elifWord ∨ k = .elseWord → ¬ r₁.Settled := by
    rintro k hk hword ⟨u, hu, -, helif, helse⟩
    rw [ht] at hu
    injection hu with heq
    rw [← heq, hk] at helif helse
    exact hword.elim helif helse
  split
  · rename_i hone
    have helif : t.kind = .elifWord := isOneOf_singleton.mp hone
    refine ensures_bind (ensures_next hr ht (by rw [helif]; decide)) ?_
    rintro word r₂ ⟨-, htake⟩
    have hr₂ := htake.advances.legal hr
    have hless₂ := htake.advances.fewer
    refine sound_guarded ih hr₂ (by omega) ?_
    rintro condition ⟨bodyTok, body⟩ r₃ hcondition hnonempty hbody hadv hskipped₃ hopen
    have hr₃ := hadv.legal hr₂
    have hless₃ := hadv.fewer
    refine ensures_bind (ih.branches r₃ hr₃ hskipped₃ (by omega)) ?_
    rintro rest r₄ ⟨hrest, hlead, hopen₄, hdone⟩
    refine ensures_pure ⟨?_, (htake.advances.toLeads.trans hadv.toLeads).trans hlead, hopen₄,
      fun h => absurd h (hnot _ helif (Or.inl rfl))⟩
    have hlast := isDone_or_not_lastEndsOpen hopen hdone
    simp only [Branches.areWellFormed, hcondition, hnonempty, hbody, hlast, hrest, Bool.not_false,
      Bool.and_self]
  · rename_i hnotElif
    refine ensures_bind (ensures_peekIs hr _) ?_
    rintro b r₂ ⟨rfl, u, hu, rfl⟩
    rw [ht] at hu
    injection hu with heq
    split
    · rename_i hone
      have helse : t.kind = .elseWord := by
        rw [heq]
        exact isOneOf_singleton.mp hone
      refine ensures_bind (ensures_next hr ht (by rw [helse]; decide)) ?_
      rintro word r₃ ⟨-, htake⟩
      have hr₃ := htake.advances.legal hr
      have hless₃ := htake.advances.fewer
      refine ensures_bind (ih.block r₃ hr₃ (by omega)) ?_
      rintro ⟨bodyTok, body⟩ r₄ ⟨hnonempty, hbody, hadv, -, hopen⟩
      refine ensures_pure ⟨?_, htake.advances.toLeads.trans hadv.toLeads, hopen,
        fun h => absurd h (hnot _ helse (Or.inr rfl))⟩
      simp only [Branches.areWellFormed, hnonempty, hbody, Bool.not_false, Bool.and_self]
    · rename_i hnotElse
      -- no branch follows, and the breaks after the body are skipped already
      refine ensures_pure ⟨rfl, .refl _, fun _ => ?_, fun _ => rfl⟩
      obtain ⟨v, hv, hbreak⟩ := hskipped
      rw [ht] at hv
      injection hv with hvt
      rw [← hvt] at hbreak
      refine ⟨t, ht, hbreak, ?_, ?_⟩
      · intro h
        exact hnotElif (isOneOf_singleton.mpr h)
      · intro h
        rw [heq] at h
        exact hnotElse (isOneOf_singleton.mpr h)

/-- A statement is well formed, takes a token at least, and has enough fuel. -/
theorem sound_statement (hr : r.Legal) (hf : 16 * r.front.length + 8 ≤ fuel + 1) :
    Ensures Halt.IsFault (statement (fuel + 1)) r fun n r' =>
      n.isStatement = true ∧ r.Advances r' ∧ (n.endsOpen = true → r'.Settled) := by
  rw [statement]
  refine ensures_bind (ensures_peek hr) ?_
  rintro first r₁ ⟨rfl, hfirst⟩
  split
  · -- a definition
    refine ensures_bind (ensures_expect hr (by decide)) ?_
    rintro tok r₂ ⟨-, htake⟩
    have hr₂ := htake.advances.legal hr
    have hless₂ := htake.advances.fewer
    refine ensures_bind (ensures_expect hr₂ (by decide)) ?_
    rintro name r₃ ⟨hident, htake₃⟩
    have hr₃ := htake₃.advances.legal hr₂
    have hless₃ := htake₃.advances.fewer
    have hname : isName name.value = true := (htake₃.legal hr₂).named (List.mem_singleton.mp hident)
    refine ensures_bind (sound_params hr₃ (by omega)) ?_
    rintro names r₄ ⟨hnames, hlead⟩
    have hless₄ := hlead.length_le
    refine ensures_bind (ih.block r₄ (hlead.legal hr₃) (by omega)) ?_
    rintro ⟨bodyTok, body⟩ r₅ ⟨hnonempty, hbody, hadv, -, hopen⟩
    refine ensures_pure ⟨?_, ?_, hopen⟩
    · simp only [Node.isStatement, hname, hnames, hnonempty, hbody, Bool.not_false, Bool.and_self]
    · exact ((htake.advances.then_leads htake₃.advances.toLeads).then_leads hlead).then_leads
        hadv.toLeads
  · -- a conditional
    refine ensures_bind (ensures_expect hr (by decide)) ?_
    rintro tok r₂ ⟨-, htake⟩
    have hr₂ := htake.advances.legal hr
    have hless₂ := htake.advances.fewer
    refine sound_guarded ih hr₂ (by omega) ?_
    rintro condition ⟨bodyTok, body⟩ r₃ hcondition hnonempty hbody hadv hskipped hopen
    have hless₃ := hadv.fewer
    refine ensures_bind (ih.branches r₃ (hadv.legal hr₂) hskipped (by omega)) ?_
    rintro rest r₄ ⟨hrest, hlead, hopen₄, hdone⟩
    refine ensures_pure ⟨?_, ?_, hopen₄⟩
    · have hlast := isDone_or_not_lastEndsOpen hopen hdone
      simp only [Node.isStatement, Branches.isGuarded, Branches.areWellFormed, hcondition,
        hnonempty, hbody, hlast, hrest, Bool.not_false, Bool.and_self]
    · exact (htake.advances.then_leads hadv.toLeads).then_leads hlead
  · -- a loop
    refine ensures_bind (ensures_expect hr (by decide)) ?_
    rintro tok r₂ ⟨-, htake⟩
    have hless₂ := htake.advances.fewer
    refine sound_guarded ih (htake.advances.legal hr) (by omega) ?_
    rintro condition ⟨bodyTok, body⟩ r₃ hcondition hnonempty hbody hadv - hopen
    refine ensures_pure ⟨?_, htake.advances.then_leads hadv.toLeads, hopen⟩
    simp only [Node.isStatement, hcondition, hnonempty, hbody, Bool.not_false, Bool.and_self]
  · -- a statement of one line, which never ends open
    refine ensures_mono (sound_simpleStatement hr hfirst (by omega)) ?_
    rintro n r₂ ⟨hn, hclosed, hadv⟩
    refine ⟨hn, hadv, fun hopen => ?_⟩
    rw [hclosed] at hopen
    exact absurd hopen (by decide)

end Step

/-- The pieces of the grammar for statements give well-formed statements or stop with a fault,
whatever the fuel, as long as it is enough for the tokens to come. -/
theorem statementsSound (fuel : Nat) : StatementsSound fuel := by
  induction fuel with
  | zero => constructor <;> intros <;> omega
  | succ fuel ih =>
    exact {
      statement := fun _ hr hf => sound_statement ih hr hf
      block := fun _ hr hf => sound_block ih hr hf
      statements := fun column _ hr hf => sound_statements ih column hr hf
      branches := fun _ hr hskipped hf => sound_branches ih hr hskipped hf }

/-- A program is made of well-formed statements, and has enough fuel. -/
theorem sound_program (hr : r.Legal) (hf : 16 * r.front.length + 9 ≤ fuel) :
    Ensures Halt.IsFault (program fuel) r fun ns _ => Node.areStatements ns = true := by
  induction fuel generalizing r with
  | zero => omega
  | succ fuel ih =>
    rw [program]
    refine ensures_bind (ensures_skipBreaks hr) ?_
    rintro - r₁ ⟨hfront, hfinal, -⟩
    have hskip : r.Leads r₁ := ⟨by rw [hfront]; exact List.dropWhile_suffix _, hfinal⟩
    have hr₁ := hskip.legal hr
    have hless₁ := hskip.length_le
    refine ensures_bind (ensures_peekIs hr₁ _) ?_
    rintro b r₂ ⟨rfl, -⟩
    split
    · exact ensures_pure rfl
    · refine ensures_bind ((statementsSound fuel).statement r₂ hr₁ (by omega)) ?_
      rintro first r₃ ⟨hfirst, hadv, -⟩
      have hless₃ := hadv.fewer
      refine ensures_bind (ih (hadv.legal hr₁) (by omega)) ?_
      rintro rest r₄ hrest
      exact ensures_pure (by simp [Node.areStatements, hfirst, hrest])

end Grammar

namespace Parse

/-- Reading a legal stream gives a well-formed program or stops with a fault. -/
theorem ofStream_sound {s : TokenStream} (hs : s.Legal) :
    match (ofStream s).outcome with
    | .ok tree => tree.isProgram = true
    | .error h => h.IsFault := by
  have hfuel : 16 * (Reading.ofStream s).front.length + 9 ≤ fuelFor s.front.length := by
    show 16 * s.front.length + 9 ≤ 16 * (s.front.length + 1)
    omega
  have h := Grammar.sound_program (r := .ofStream s) hs hfuel
  unfold Grammar.Ensures at h
  unfold ofStream
  cases hr : Grammar.program (fuelFor s.front.length) (.ofStream s) with
  | ok statements left =>
    rw [hr] at h
    exact h
  | error e left =>
    rw [hr] at h
    exact h

/-- Reading a text gives a well-formed program or stops with a fault. -/
theorem ofText_sound (t : Text) :
    match (ofText t).outcome with
    | .ok tree => tree.isProgram = true
    | .error h => h.IsFault :=
  ofStream_sound (TokenStream.ofText_legal t)

end Parse

end Offside
