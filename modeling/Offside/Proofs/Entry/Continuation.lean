import Offside.Entry
import Offside.Proofs.Token.Texts
import Offside.Proofs.Tree.Foresight
import Mathlib.Data.List.TakeWhile

/-!
# What a further line does to an entry

A source that opens no block is compared with the same source and a further line. Where the first
one ends, the second one has a line break, and nothing that the grammar wants there can be one:
either the source is complete, or the line break is refused just as the end was. So an entry without
a block that misses something at its end misses it for good (`flat_entry_is_never_completed`), and a
blank line leaves nothing missing (`blank_line_ends_entry`).
-/

set_option autoImplicit false

namespace Offside

namespace Entry

variable {t u e : Token} {front more : List Token}

/-- Where no block is opened, none is opened behind the first token. -/
theorem hasOpening_tail (h : hasOpening (t :: front) = false) : hasOpening front = false := by
  cases front with
  | nil => rfl
  | cons u rest => simp_all [hasOpening]

/-- A colon that opens no block has something behind it on its line. -/
theorem not_isOneOf_of_colon (h : hasOpening (t :: u :: front) = false) (ht : t.kind = .colon) :
    u.isOneOf [.newline, .endOfInput] = false := by
  simp_all [hasOpening]

/-- A line break behind a colon opens a block just as the end does. -/
theorem hasOpening_of_line (hu : u.kind = .newline) (he : e.kind = .endOfInput)
    (h : hasOpening (front ++ u :: more) = false) : hasOpening (front ++ [e]) = false := by
  induction front with
  | nil => rfl
  | cons t front ih =>
    have htail := ih (hasOpening_tail h)
    cases front with
    | nil => simp_all [hasOpening, Token.isOneOf]
    | cons v rest => simp_all [hasOpening]

end Entry

namespace Reading

/-- The first reading, which opens no block, ends where the second one has a line break. -/
structure GoesOn (e u : Token) (more : TokenStream) (r r' : Reading) : Prop where
  ended : r.final = .ok e
  front : r'.front = r.front ++ u :: more.front
  final : r'.final = more.final
  line : r'.afterBreak = r.afterBreak
  notEnd : ∀ t ∈ r.front, t.kind ≠ .endOfInput
  flat : Entry.hasOpening (r.front ++ [e]) = false

/-- Nothing is to come but line breaks. -/
def Idle (r : Reading) : Prop := TokenStream.Blank ⟨r.front, r.final⟩

end Reading

namespace Grammar

open Reading

section

variable {e u : Token} {more : TokenStream} (he : e.kind = .endOfInput) (hu : u.kind = .newline)

/-- A run on a source is compared with a run on the source and a further line: where the first one
stops, the second one does, and not because of its end. -/
def Comparison.nextLine (more : TokenStream) : Comparison where
  related := GoesOn e u more
  known t := t.kind ≠ .endOfInput
  excused _ := False
  stops _ h' := h'.Blames (·.kind ≠ .endOfInput)
  line h := h.line
  noted _ _ h := ⟨h.ended, h.front, h.final, h.line, h.notEnd, h.flat⟩
  taken {r r' t front} h hfront := by
    have hmem := hfront ▸ h.notEnd
    have hflat := hfront ▸ h.flat
    refine ⟨hmem t List.mem_cons_self, front ++ u :: more.front, by simp [h.front, hfront], ?_⟩
    exact ⟨h.ended, rfl, h.final, rfl, fun v hv => hmem v (List.mem_cons_of_mem _ hv),
      Entry.hasOpening_tail hflat⟩
  ended {r r'} h hfront := by
    refine .inr ⟨e, u, h.ended, he, by simp [next?, h.front, hfront], .inr hu, fun kinds => ?_⟩
    exact ⟨u, kinds, "", by simp [hu], rfl⟩
  blamed {t} kinds reason h := ⟨t, kinds, reason, h, rfl⟩

/-- A source that opens no block has no colon at the end of a line. -/
theorem Comparison.nextLine_flat : (nextLine he hu more).Flat := by
  intro r r' t front h hfront ht
  cases front with
  | nil =>
    have hflat : Entry.hasOpening (t :: e :: []) = false := by simpa [hfront] using h.flat
    have hone := Entry.not_isOneOf_of_colon hflat ht
    simp [Token.isOneOf, he] at hone
  | cons v rest =>
    refine ⟨v, rest, rfl, fun hv => ?_⟩
    have hflat : Entry.hasOpening (t :: v :: (rest ++ [e])) = false := by
      simpa [hfront] using h.flat
    have hone := Entry.not_isOneOf_of_colon hflat ht
    simp [Token.isOneOf, hv] at hone

/-- The end of a line where the first source ends is the line break in the second one. -/
theorem agrees_endLine_nextLine {r r' : Reading} (hr : GoesOn e u more r r') :
    Agrees (Comparison.nextLine he hu more) endLine endLine r r' fun _ r₁ r₁' =>
      GoesOn e u more r₁ r₁' ∨ r₁.Idle ∧ (more.Blank → r₁'.Idle) := by
  by_cases hline : r.afterBreak = true
  · have hend : ∀ s : Reading, s.afterBreak = true → endLine s = .ok () s := by
      intro s hs
      show (if s.afterBreak then pure () else _ : Grammar Unit) s = _
      rw [if_pos hs]
      rfl
    unfold Agrees
    rw [hend r hline, hend r' (hr.line.trans hline)]
    exact ⟨rfl, .inl hr⟩
  have hend : ∀ s : Reading, s.afterBreak = r.afterBreak → endLine s =
      (do if ← peekIs [.endOfInput] then pure () else let _ ← expect [.newline]; pure ()) s := by
    intro s hs
    show (if s.afterBreak then pure () else _ : Grammar Unit) s = _
    rw [if_neg (hs ▸ hline)]
  cases hfront : r.front with
  -- the first source ends here, and the second one has its line break
  | nil =>
    have hleft : endLine r = .ok () r := by
      rw [hend r rfl]
      show EStateM.bind (EStateM.bind peek _) _ r = _
      simp [EStateM.bind, peek, hfront, hr.ended, pure, EStateM.pure, Token.isOneOf, he]
    have hright : endLine r' = .ok () { r' with front := more.front, afterBreak := true } := by
      rw [hend r' hr.line]
      show EStateM.bind (EStateM.bind peek _) _ r' = _
      simp [EStateM.bind, bind, peek, next, expect, hfront, hr.front, pure, EStateM.pure,
        Token.isOneOf, Token.isBreak, hu]
    unfold Agrees
    rw [hleft, hright]
    refine ⟨rfl, .inr ⟨⟨by simp [hfront], e, hr.ended, he⟩, fun hblank => ?_⟩⟩
    exact ⟨hblank.front, by simpa [hr.final] using hblank.final⟩
  -- both sources go on with the same token
  | cons t front =>
    have hC : (Comparison.nextLine he hu more).related r r' := hr
    unfold Agrees
    rw [hend r rfl, hend r' hr.line]
    refine agrees_bind (K := fun _ r₁ r₁' => r₁ = r ∧ r₁' = r') ?_ ?_
    · refine agrees_bind (agrees_peek hC (.inl (by simp [hfront]))) ?_
      rintro v r₁ r₁' ⟨rfl, rfl, -⟩
      exact agrees_pure ⟨rfl, rfl⟩
    rintro b r₁ r₁' ⟨rfl, rfl⟩
    refine agrees_ite (fun _ => agrees_pure (.inl hr)) fun _ => ?_
    refine agrees_bind (agrees_expect_cons hC hfront) ?_
    rintro v r₂ r₂' ⟨-, -, hr₂, -⟩
    exact agrees_pure (.inl hr₂)

end

/-! ## Programs -/

/-- A sequence stops where its first part does, or else where the second one does. -/
theorem stop?_bind {α β : Type} (p : Grammar α) (f : α → Grammar β) (r : Reading) :
    stop? (p >>= f) r = match p r with
      | .ok a r' => stop? (f a) r'
      | .error h _ => some h := by
  unfold stop?
  simp only [bind, EStateM.bind]
  cases p r <;> rfl

/-- What is made of a result does not matter for how a piece stops. -/
theorem stop?_map {α β : Type} (p : Grammar α) (f : α → β) (r : Reading) :
    stop? (do let a ← p; pure (f a)) r = stop? p r := by
  rw [stop?_bind]
  unfold stop?
  cases p r <;> rfl

/-- A program that stops in a source stops with a further line, and not because of its end; one that
is read is read with a blank line, too. -/
def FollowsUp (more : TokenStream) : Option Halt → Option Halt → Prop
  | none, none => True
  | none, some h' => h' = .outOfFuel ∨ ¬ more.Blank
  | some h, none => h = .outOfFuel
  | some h, some h' => h = .outOfFuel ∨ h' = .outOfFuel ∨ h'.Blames (·.kind ≠ .endOfInput)

section

variable {e u : Token} {more : TokenStream} {he : e.kind = .endOfInput} {hu : u.kind = .newline}

/-- Nothing is said where the first run is out of fuel. -/
theorem followsUp_starved (o : Option Halt) : FollowsUp more (some .outOfFuel) o := by
  cases o <;> simp [FollowsUp]

/-- Nothing is said where the second run is out of fuel. -/
theorem followsUp_starving (o : Option Halt) : FollowsUp more o (some .outOfFuel) := by
  cases o <;> simp [FollowsUp]

/-- Sequences follow up if their first parts agree and what follows them does. -/
theorem followsUp_bind {α β : Type} {p p' : Grammar α} {f f' : α → Grammar β} {r r' : Reading}
    {K : α → Reading → Reading → Prop} (hp : Agrees (Comparison.nextLine he hu more) p p' r r' K)
    (hf : ∀ a r₁ r₁', K a r₁ r₁' → FollowsUp more (stop? (f a) r₁) (stop? (f' a) r₁')) :
    FollowsUp more (stop? (p >>= f) r) (stop? (p' >>= f') r') := by
  rw [stop?_bind, stop?_bind]
  cases hr : p r with
  | ok a r₁ =>
    have hyield := hp.of_ok hr
    unfold Ensures at hyield
    cases hr' : p' r' with
    | ok a' r₁' =>
      rw [hr'] at hyield
      obtain ⟨rfl, hK⟩ := hyield
      exact hf a' r₁ r₁' hK
    | error h' r₁' =>
      rw [hr'] at hyield
      rw [hyield]
      exact followsUp_starving _
  | error h r₁ =>
    by_cases hfuel : h = .outOfFuel
    · rw [hfuel]
      exact followsUp_starved _
    · obtain ⟨h', r₁', hr', hstops⟩ := hp.of_error hr hfuel id
      rw [hr']
      exact .inr hstops

/-- Where nothing but line breaks is to come, a program is over. -/
theorem program_idle {r : Reading} (h : r.Idle) (fuel : Nat) :
    stop? (program (fuel + 1)) r = none := by
  obtain ⟨hfront, t, hfinal, ht⟩ := h
  dsimp only at hfront hfinal
  have hpast : r.front.dropWhile Token.isBreak = [] := List.dropWhile_eq_nil_iff.mpr hfront
  have hskip : skipBreaks r = .ok () r.pastBreaks := by
    show EStateM.bind peek _ r.pastBreaks = _
    simp only [EStateM.bind, peek, pastBreaks, hpast, hfinal]
    rfl
  have hlook : peekIs [.endOfInput] r.pastBreaks = .ok true r.pastBreaks := by
    show EStateM.bind peek _ r.pastBreaks = _
    simp [EStateM.bind, peek, pastBreaks, hpast, hfinal, pure, EStateM.pure, Token.isOneOf, ht]
  rw [program, stop?_bind, hskip]
  dsimp only
  rw [stop?_bind, hlook]
  rfl

/-- A blank source is complete, and stays so if what is added is blank. -/
theorem followsUp_idle {r r' : Reading} (h : r.Idle) (h' : more.Blank → r'.Idle) (m n : Nat) :
    FollowsUp more (stop? (program m) r) (stop? (program n) r') := by
  cases m with
  | zero => exact followsUp_starved _
  | succ m =>
    cases n with
    | zero => exact followsUp_starving _
    | succ n =>
      rw [program_idle h]
      by_cases hblank : more.Blank
      · rw [program_idle (h' hblank)]
        trivial
      · cases stop? (program (n + 1)) r' with
        | none => trivial
        | some h => exact .inr hblank

/-- A program without an opened block and the same one with a further line follow up. -/
theorem followsUp_program (he : e.kind = .endOfInput) (hu : u.kind = .newline) {r r' : Reading}
    (hr : GoesOn e u more r r') (m n : Nat) :
    FollowsUp more (stop? (program m) r) (stop? (program n) r') := by
  induction m generalizing n r r' with
  | zero => exact followsUp_starved _
  | succ m ih =>
    cases n with
    | zero => exact followsUp_starving _
    | succ n =>
      by_cases hall : r.front.dropWhile Token.isBreak = []
      · -- only line breaks are left before the end
        have hbreaks := List.dropWhile_eq_nil_iff.mp hall
        refine followsUp_idle ⟨hbreaks, e, hr.ended, he⟩ (fun hblank => ?_) _ _
        refine ⟨fun t ht => ?_, by simpa [hr.final] using hblank.final⟩
        simp only [hr.front, List.mem_append, List.mem_cons] at ht
        rcases ht with ht | rfl | ht
        · exact hbreaks t ht
        · simp [Token.isBreak, hu]
        · exact hblank.front t ht
      · have hC : (Comparison.nextLine he hu more).related r r' := hr
        rw [program, program]
        refine followsUp_bind (agrees_skipBreaks hC (.inl hall)) ?_
        rintro - r₁ r₁' ⟨hr₁, rfl, -⟩
        have hsome : r.pastBreaks.front ≠ [] := hall
        have hlook : Agrees (Comparison.nextLine he hu more) (peekIs [.endOfInput])
            (peekIs [.endOfInput]) r.pastBreaks r₁'
            fun b r₂ r₂' => b = false ∧ r₂ = r.pastBreaks ∧ r₂' = r₁' := by
          refine agrees_bind (agrees_peek hr₁ (.inl hsome)) ?_
          rintro t r₂ r₂' ⟨rfl, rfl, -, hend⟩
          have hnot : t.isOneOf [.endOfInput] = false := by
            rw [← Bool.not_eq_true, isOneOf_singleton]
            exact hend
          exact agrees_pure ⟨hnot, rfl, rfl⟩
        refine followsUp_bind hlook ?_
        rintro b r₂ r₂' ⟨rfl, rfl, rfl⟩
        simp only [Bool.false_eq_true, if_false]
        refine followsUp_bind ((statementsAgree (.inr (Comparison.nextLine_flat he hu)) m n).statement
          (agrees_endLine_nextLine he hu) (fun _ _ _ hs => .inl hs) hr₁ (.inl hsome)) ?_
        intro first r₃ r₃' hr₃
        rw [stop?_map, stop?_map]
        -- the statement has ended in front of the cut, or with the end of the first source
        rcases hr₃ with hr₃ | ⟨hidle, hidle'⟩
        · exact ih hr₃ n
        · exact followsUp_idle hidle hidle' m n

end

end Grammar

/-! ## Texts -/

namespace Parse

/-- A text that cannot be read is no better with a further line, and one that can is no worse with a
blank one. -/
theorem outcome_line {a : Text} {e : Token} (h : (TokenStream.ofText a).final = .ok e)
    (hflat : Entry.hasOpening (TokenStream.ofText a).toList = false) (b : Text) :
    (∀ x, (ofText a).outcome = .error x → ∃ y, (ofText (a ++ lineFeed :: b)).outcome = .error y ∧
      y.Blames (·.kind ≠ .endOfInput)) ∧
    (b.isBlankLine = true → (∃ tree, (ofText a).outcome = .ok tree) →
      ∃ tree, (ofText (a ++ lineFeed :: b)).outcome = .ok tree) := by
  obtain ⟨u, more, hu, hline, hblank⟩ := TokenStream.ofText_line h b
  have hlegal := TokenStream.ofText_legal a
  have he : e.kind = .endOfInput := by
    have hfinal := hlegal.final
    rwa [h] at hfinal
  have hgoes : Reading.GoesOn e u more (.ofStream (TokenStream.ofText a))
      (.ofStream (TokenStream.ofText (a ++ lineFeed :: b))) := by
    refine ⟨h, by rw [hline]; rfl, by rw [hline]; rfl, rfl, fun t ht => (hlegal.front t ht).notEnd, ?_⟩
    simpa [TokenStream.toList, h, Reading.ofStream] using hflat
  have hfollows := Grammar.followsUp_program he hu hgoes
    (fuelFor (TokenStream.ofText a).front.length)
    (fuelFor (TokenStream.ofText (a ++ lineFeed :: b)).front.length)
  have hfuel := outcome_ne_outOfFuel hlegal
  have hfuel' := outcome_ne_outOfFuel (TokenStream.ofText_legal (a ++ lineFeed :: b))
  unfold ofText
  simp only [ne_eq, outcome_eq_error_iff_stop?, exists_outcome_iff] at hfuel hfuel' ⊢
  -- neither reading runs out of fuel, so the other cases of following up are all that is left
  refine ⟨fun x hx => ?_, fun hb hread => ?_⟩
  · rw [hx] at hfollows hfuel
    have hx' : x ≠ .outOfFuel := by simpa using hfuel
    cases hright : Grammar.stop? _ (.ofStream (TokenStream.ofText (a ++ lineFeed :: b))) with
    | none =>
      rw [hright] at hfollows
      exact absurd hfollows hx'
    | some y =>
      rw [hright] at hfollows hfuel'
      have hy : y ≠ .outOfFuel := by simpa using hfuel'
      exact ⟨y, rfl, (hfollows.resolve_left hx').resolve_left hy⟩
  · rw [hread] at hfollows
    cases hright : Grammar.stop? _ (.ofStream (TokenStream.ofText (a ++ lineFeed :: b))) with
    | none => rfl
    | some y =>
      rw [hright] at hfollows hfuel'
      have hy : y ≠ .outOfFuel := by simpa using hfuel'
      exact absurd (hblank hb) (hfollows.resolve_left hy)

end Parse

namespace Entry

/-- Two entries are joined by a line feed. -/
theorem join_append {lines further : List Text} (hlines : lines ≠ []) (hfurther : further ≠ []) :
    join (lines ++ further) = join lines ++ lineFeed :: join further := by
  induction lines with
  | nil => exact absurd rfl hlines
  | cons line rest ih =>
    cases rest with
    | nil =>
      cases further with
      | nil => exact absurd rfl hfurther
      | cons next more => simp [join]
    | cons second rest =>
      have hrest := ih (by simp)
      simp only [List.cons_append, join] at hrest ⊢
      simp [hrest]

/-- A source is unfinished if its end is what the grammar refuses. -/
theorem isUnfinished_iff {source : Text} : isUnfinished source = true ↔ ∃ kinds reason pos,
    (Parse.ofText source).outcome = .error (.fault (.unexpected .endOfInput kinds reason pos)) := by
  unfold isUnfinished
  split
  · simp_all
  · rename_i hother
    refine ⟨fun h => absurd h (by simp), fun ⟨kinds, reason, pos, h⟩ => ?_⟩
    exact absurd h (hother _ _ _ _)

/-- A source that misses something at its end is made of tokens. -/
theorem final_of_isUnfinished {source : Text} (h : isUnfinished source = true) :
    ∃ e, (TokenStream.ofText source).final = .ok e := by
  obtain ⟨kinds, reason, pos, houtcome⟩ := isUnfinished_iff.mp h
  have hlegal := TokenStream.ofText_legal source
  cases hfinal : (TokenStream.ofText source).final with
  | ok e => exact ⟨e, rfl⟩
  | error x =>
    obtain hstop | ⟨t, _, _, ht, hblame⟩ := Parse.blames hlegal houtcome
    · exact absurd hstop (TokenStream.ofText_final_ne source _ kinds reason pos)
    · simp only [TokenStream.toList, hfinal] at ht
      simp only [Halt.fault.injEq, Fault.unexpected.injEq] at hblame
      exact absurd hblame.1.symm (hlegal.front t ht).notEnd

/-- A source that opens no block has no opening among its tokens. -/
theorem hasOpening_of_opensBlock {source : Text} {e : Token} (h : opensBlock source = false)
    (hfinal : (TokenStream.ofText source).final = .ok e) :
    hasOpening (TokenStream.ofText source).toList = false := by
  simpa [opensBlock, TokenStream.halt?, hfinal] using h

/-- An entry without an opened block needs more only if it is unfinished. -/
theorem isUnfinished_of_needsMore {lines : List Text} (hflat : opensBlock (join lines) = false)
    (hmore : needsMore lines = true) : isUnfinished (join lines) = true := by
  unfold needsMore at hmore
  split at hmore
  · contradiction
  · simpa [hflat] using hmore

/-- Whatever lines follow an entry without a block that misses something at its end, they start with
the line break that is refused there. -/
theorem fault_of_needsMore {lines further : List Text} (hflat : opensBlock (join lines) = false)
    (hmore : needsMore lines = true) (hfurther : further ≠ []) :
    ∃ got kinds reason pos, got ≠ .endOfInput ∧ (Parse.ofText (join (lines ++ further))).outcome =
      .error (.fault (.unexpected got kinds reason pos)) := by
  have hlines : lines ≠ [] := by
    rintro rfl
    simp [needsMore] at hmore
  have hunfinished := isUnfinished_of_needsMore hflat hmore
  obtain ⟨kinds, reason, pos, houtcome⟩ := isUnfinished_iff.mp hunfinished
  obtain ⟨e, hfinal⟩ := final_of_isUnfinished hunfinished
  have hline := Parse.outcome_line hfinal (hasOpening_of_opensBlock hflat hfinal) (join further)
  obtain ⟨y, hy, t, kinds', reason', ht, hblame⟩ := hline.1 _ houtcome
  refine ⟨t.kind, kinds', reason', t.pos, ht, ?_⟩
  rw [join_append hlines hfurther, hy, hblame]

/-- A source of white space is complete. -/
theorem not_isUnfinished_of_blank {source : Text} (h : source.isBlankLine = true) :
    isUnfinished source = false := by
  have hidle : (Reading.ofStream (TokenStream.ofText source)).Idle :=
    TokenStream.blank_of_isBlankLine h _ _
  obtain ⟨tree, htree⟩ := Parse.exists_outcome_iff.mpr (Grammar.program_idle hidle _)
  rw [← Bool.not_eq_true, isUnfinished_iff]
  rintro ⟨kinds, reason, pos, houtcome⟩
  rw [Parse.ofText, htree] at houtcome
  contradiction

/-- A blank line completes a source that opens no block, or leaves it faulty for another reason. -/
theorem not_isUnfinished_of_line {a b : Text} (hb : b.isBlankLine = true)
    (hflat : opensBlock (a ++ lineFeed :: b) = false) : isUnfinished (a ++ lineFeed :: b) = false := by
  rw [← Bool.not_eq_true]
  intro hunfinished
  obtain ⟨kinds, reason, pos, houtcome⟩ := isUnfinished_iff.mp hunfinished
  obtain ⟨e', hfinal'⟩ := final_of_isUnfinished hunfinished
  cases hfinal : (TokenStream.ofText a).final with
  | error x =>
    obtain ⟨y, hy⟩ := TokenStream.ofText_unmended hb hfinal
    rw [hy] at hfinal'
    contradiction
  | ok e =>
    have hopen : hasOpening (TokenStream.ofText a).toList = false := by
      obtain ⟨u, more, hu, hline, -⟩ := TokenStream.ofText_line hfinal b
      have he : e.kind = .endOfInput := by
        have hlegal := (TokenStream.ofText_legal a).final
        rwa [hfinal] at hlegal
      have hwhole := hasOpening_of_opensBlock hflat hfinal'
      rw [hline] at hwhole hfinal'
      dsimp only at hfinal'
      simp only [TokenStream.toList, hfinal', List.append_assoc, List.cons_append] at hwhole
      simpa only [TokenStream.toList, hfinal] using hasOpening_of_line hu he hwhole
    have hline := Parse.outcome_line hfinal hopen b
    cases hread : (Parse.ofText a).outcome with
    | ok tree =>
      obtain ⟨tree', htree'⟩ := hline.2 hb ⟨tree, hread⟩
      rw [htree'] at houtcome
      contradiction
    | error x =>
      obtain ⟨y, hy, t, _, _, ht, hblame⟩ := hline.1 x hread
      rw [hy, hblame] at houtcome
      simp only [Except.error.injEq, Halt.fault.injEq, Fault.unexpected.injEq] at houtcome
      exact ht houtcome.1

end Entry

open Entry

/-- More lines are asked for in vain: an entry without a block that misses something at its end is
not completed by any further lines, for the line break in front of them is refused. -/
theorem flat_entry_is_never_completed {lines : List Text} (hflat : opensBlock (join lines) = false)
    (hmore : needsMore lines = true) :
    (∃ kinds reason pos, (Parse.ofText (join lines)).outcome =
      .error (.fault (.unexpected .endOfInput kinds reason pos))) ∧
    ∀ further, further ≠ [] → ∃ got kinds reason pos, got ≠ .endOfInput ∧
      (Parse.ofText (join (lines ++ further))).outcome =
        .error (.fault (.unexpected got kinds reason pos)) :=
  ⟨isUnfinished_iff.mp (isUnfinished_of_needsMore hflat hmore),
    fun _ hfurther => fault_of_needsMore hflat hmore hfurther⟩

/-- An argument list that breaks off is such an entry. -/
theorem flat_entry_is_never_completed_call :
    opensBlock (join [Text.ofString "print(1,"]) = false ∧
      needsMore [Text.ofString "print(1,"] = true ∧
      ∃ got kinds reason pos, got ≠ .endOfInput ∧
        (Parse.ofText (join [Text.ofString "print(1,", Text.ofString "2)"])).outcome =
          .error (.fault (.unexpected got kinds reason pos)) := by
  have hflat : opensBlock (join [Text.ofString "print(1,"]) = false := by decide +kernel
  have hmore : needsMore [Text.ofString "print(1,"] = true := by decide +kernel
  exact ⟨hflat, hmore,
    (flat_entry_is_never_completed hflat hmore).2 [Text.ofString "2)"] (by simp)⟩

/-- More lines are asked for although none can help. -/
theorem asked_for_lines_in_vain :
    opensBlock (join [Text.ofString "print(1,"]) = false ∧
      needsMore [Text.ofString "print(1,"] = true ∧
      ¬ ∃ further tree, (Parse.ofText (join ([Text.ofString "print(1,"] ++ further))).outcome =
        .ok tree := by
  have hflat : opensBlock (join [Text.ofString "print(1,"]) = false := by decide +kernel
  have hmore : needsMore [Text.ofString "print(1,"] = true := by decide +kernel
  refine ⟨hflat, hmore, ?_⟩
  rintro ⟨further, tree, hread⟩
  by_cases hfurther : further = []
  · obtain ⟨kinds, reason, pos, hfault⟩ :=
      isUnfinished_iff.mp (isUnfinished_of_needsMore hflat hmore)
    simp [hfurther, hfault] at hread
  · obtain ⟨got, kinds, reason, pos, -, hfault⟩ := fault_of_needsMore hflat hmore hfurther
    rw [hfault] at hread
    contradiction

/-- A blank line ends every entry, whatever its lines are made of. -/
theorem blank_line_ends_entry (lines : List Text) (last : Text)
    (hlast : lines.getLast? = some last) (hblank : last.isBlankLine = true) :
    needsMore lines = false := by
  unfold needsMore
  simp only [hlast, hblank, Bool.not_true]
  split
  · rfl
  · rename_i hflat
    obtain ⟨init, rfl⟩ := List.getLast?_eq_some_iff.mp hlast
    by_cases hinit : init = []
    · simpa [hinit, join] using not_isUnfinished_of_blank hblank
    · rw [join_append hinit (by simp)] at hflat ⊢
      exact not_isUnfinished_of_line hblank (by simpa using hflat)

/-- A call that misses its last argument needs more, and needs nothing more once a blank line is
given. -/
theorem blank_line_ends_entry_call :
    needsMore [Text.ofString "print(1,"] = true ∧
      needsMore [Text.ofString "print(1,", Text.ofString "\t "] = false :=
  ⟨by decide +kernel, blank_line_ends_entry _ (Text.ofString "\t ") (by simp) (by decide +kernel)⟩

end Offside
