import Offside.Proofs.Tree.ExpressionSound

/-!
# Two runs of the grammar side by side

A comparison relates the readings that two runs of the same piece of the grammar work on, and says
what may become of the second run when the first one stops. As long as both readings show the same
tokens the runs go in lockstep; a comparison only has to say what happens where the tokens of the
first reading are used up. The fuel of the two runs need not be the same, and a run that is out of
fuel is compared with nothing.

A comparison is `Full` if its readings also end alike, and then whole programs agree. One that is
`Flat` never shows a line break behind a colon: no block or selection is entered, so that the pieces
of the grammar that take line breaks play no part.
-/

set_option autoImplicit false

namespace Offside

/-- A reading behind the line breaks that come next. -/
def Reading.pastBreaks (r : Reading) : Reading :=
  { r with
    front := r.front.dropWhile Token.isBreak
    afterBreak := r.afterBreak || r.front.head?.any Token.isBreak }

/-- Where no line break is next, there is none to get past. -/
theorem Reading.pastBreaks_of_head {r : Reading} (h : r.front.head?.any Token.isBreak = false) :
    r.pastBreaks = r := by
  obtain ⟨front, final, afterBreak, notes⟩ := r
  cases front with
  | nil => simp [pastBreaks]
  | cons t front => simp_all [pastBreaks]

/-- To get past line breaks is to take the first one and get past the others. -/
theorem Reading.pastBreaks_cons {r : Reading} {t : Token} {front : List Token}
    (hfront : r.front = t :: front) (ht : t.isBreak = true) :
    r.pastBreaks = pastBreaks { r with front := front, afterBreak := t.isBreak } := by
  simp [pastBreaks, hfront, ht]

namespace Grammar

open Reading

/-- Neither line breaks nor the end of the source are among the kinds. -/
def Plain (kinds : List Kind) : Prop := Kind.endOfInput ∉ kinds ∧ Kind.newline ∉ kinds

instance (kinds : List Kind) : Decidable (Plain kinds) :=
  inferInstanceAs (Decidable (_ ∧ _))

/-- What two runs of the grammar are compared by. -/
structure Comparison where
  /-- The readings the two runs work on. -/
  related : Reading → Reading → Prop
  /-- The tokens that the runs may blame. -/
  known : Token → Prop
  /-- The stops of the first run that say nothing about the second. -/
  excused : Halt → Prop
  /-- How the second run stops where the first one does. -/
  stops : Halt → Halt → Prop
  line : ∀ {r r'}, related r r' → r'.afterBreak = r.afterBreak
  noted : ∀ {r r'} ns ns', related r r' → related { r with notes := ns } { r' with notes := ns' }
  taken : ∀ {r r' t front}, related r r' → r.front = t :: front →
    known t ∧ ∃ front', r'.front = t :: front' ∧
      related { r with front := front, afterBreak := t.isBreak }
        { r' with front := front', afterBreak := t.isBreak }
  ended : ∀ {r r'}, related r r' → r.front = [] →
    (∃ h, r.final = .error h ∧ excused h) ∨
      ∃ t t', r.final = .ok t ∧ t.kind = .endOfInput ∧ r'.next? = some t' ∧
        (t'.kind = .endOfInput ∨ t'.kind = .newline) ∧
        ∀ kinds, stops (.fault (.unexpected t.kind kinds "" t.pos))
          (.fault (.unexpected t'.kind kinds "" t'.pos))
  blamed : ∀ {t} kinds reason, known t → stops (.fault (.unexpected t.kind kinds reason t.pos))
    (.fault (.unexpected t.kind kinds reason t.pos))

namespace Comparison

/-- Where the first reading ends, the second one ends with the same token. -/
def Full (C : Comparison) : Prop :=
  ∀ {r r' t}, C.related r r' → r.front = [] → r.final = .ok t →
    C.known t ∧ r'.front = [] ∧ r'.final = .ok t

/-- A colon is followed by a token that is no line break. -/
def Flat (C : Comparison) : Prop :=
  ∀ {r r' t front}, C.related r r' → r.front = t :: front → t.kind = .colon →
    ∃ u rest, front = u :: rest ∧ u.kind ≠ .newline

/-- The outcomes of the two runs fit together. -/
def Meet {α : Type} (C : Comparison) (K : α → Reading → Reading → Prop) :
    EStateM.Result Halt Reading α → EStateM.Result Halt Reading α → Prop
  | .ok a r, .ok a' r' => a' = a ∧ K a r r'
  | .ok _ _, .error h' _ => h' = .outOfFuel
  | .error h _, .ok _ _ => h = .outOfFuel ∨ C.excused h
  | .error h _, .error h' _ => (h = .outOfFuel ∨ C.excused h) ∨ h' = .outOfFuel ∨ C.stops h h'

end Comparison

/-- Two pieces of the grammar, each on its own reading, do the same as far as the comparison goes,
and leave readings with the property. -/
def Agrees {α : Type} (C : Comparison) (p p' : Grammar α) (r r' : Reading)
    (K : α → Reading → Reading → Prop) : Prop :=
  C.Meet K (p r) (p' r')

variable {C : Comparison} {r r' : Reading}

section Rules

variable {α β : Type} {p p' q q' : Grammar α} {f f' : α → Grammar β}
  {K L : α → Reading → Reading → Prop} {M : β → Reading → Reading → Prop}

/-- The same result agrees with itself. -/
theorem agrees_pure {a : α} (h : K a r r') : Agrees C (pure a) (pure a) r r' K := ⟨rfl, h⟩

/-- A first run that is out of fuel agrees with anything. -/
theorem agrees_starved : Agrees C (throw .outOfFuel) p' r r' K := by
  unfold Agrees
  cases p' r' with
  | ok a r₁ => exact .inl rfl
  | error h r₁ => exact .inl (.inl rfl)

/-- A second run that is out of fuel agrees with anything. -/
theorem agrees_starving : Agrees C p (throw .outOfFuel) r r' K := by
  unfold Agrees
  cases p r with
  | ok a r₁ => exact rfl
  | error h r₁ => exact .inr (.inl rfl)

/-- A first run that stops in an excused way agrees with anything. -/
theorem agrees_excused {h : Halt} {s : Reading} (hp : p r = .error h s) (hexcused : C.excused h) :
    Agrees C p p' r r' K := by
  unfold Agrees
  rw [hp]
  cases p' r' with
  | ok a r₁ => exact .inr hexcused
  | error h' r₁ => exact .inl (.inr hexcused)

/-- Sequences agree if their first parts do, and what follows them does. -/
theorem agrees_bind (hp : Agrees C p p' r r' K)
    (hf : ∀ a r₁ r₁', K a r₁ r₁' → Agrees C (f a) (f' a) r₁ r₁' M) :
    Agrees C (p >>= f) (p' >>= f') r r' M := by
  unfold Agrees at hp hf ⊢
  show C.Meet M (EStateM.bind p f r) (EStateM.bind p' f' r')
  unfold EStateM.bind
  cases hr : p r with
  | ok a r₁ =>
    cases hr' : p' r' with
    | ok a' r₁' =>
      rw [hr, hr'] at hp
      obtain ⟨rfl, hK⟩ := hp
      exact hf a' r₁ r₁' hK
    | error h' r₁' =>
      rw [hr, hr'] at hp
      -- the second run is out of fuel, whatever becomes of the first
      obtain rfl : h' = .outOfFuel := hp
      cases hfa : f a r₁ with
      | ok b r₂ => simp [Comparison.Meet, hfa]
      | error h r₂ => simp [Comparison.Meet, hfa]
  | error h r₁ =>
    cases hr' : p' r' with
    | ok a' r₁' =>
      rw [hr, hr'] at hp
      -- the first run is over, so the second may go on as it likes
      have hexcused : h = .outOfFuel ∨ C.excused h := hp
      cases hfa : f' a' r₁' with
      | ok b r₂ => simpa only [Comparison.Meet, hfa] using hexcused
      | error h' r₂ => simpa only [Comparison.Meet, hfa] using Or.inl hexcused
    | error h' r₁' =>
      rw [hr, hr'] at hp
      exact hp

/-- What agrees with a stronger property agrees with a weaker one. -/
theorem agrees_mono (hp : Agrees C p p' r r' K) (h : ∀ a r₁ r₁', K a r₁ r₁' → L a r₁ r₁') :
    Agrees C p p' r r' L := by
  have hbind : Agrees C (p >>= pure) (p' >>= pure) r r' L :=
    agrees_bind hp fun a r₁ r₁' hK => agrees_pure (h a r₁ r₁' hK)
  rwa [bind_pure, bind_pure] at hbind

/-- A choice by the same condition agrees if both cases do. -/
theorem agrees_ite {c : Prop} [Decidable c] (hp : c → Agrees C p p' r r' K)
    (hq : ¬ c → Agrees C q q' r r' K) :
    Agrees C (if c then p else q) (if c then p' else q') r r' K := by
  by_cases hc : c
  · simpa only [hc, if_true] using hp hc
  · simpa only [hc, if_false] using hq hc

/-- Where the first run gives a result, the second one gives the same, unless its fuel is used
up. -/
theorem Agrees.of_ok {a : α} {s : Reading} (h : Agrees C p p' r r' K) (hp : p r = .ok a s) :
    Ensures (· = .outOfFuel) p' r' fun a' s' => a' = a ∧ K a s s' := by
  unfold Agrees at h
  unfold Ensures
  rw [hp] at h
  cases hp' : p' r' with
  | ok a' s' =>
    rw [hp'] at h
    exact h
  | error e s' =>
    rw [hp'] at h
    exact h

/-- Where the first run stops without an excuse, the second one stops as well. -/
theorem Agrees.of_error {e : Halt} {s : Reading} (h : Agrees C p p' r r' K)
    (hp : p r = .error e s) (hfuel : e ≠ .outOfFuel) (hexcused : ¬ C.excused e) :
    ∃ e' s', p' r' = .error e' s' ∧ (e' = .outOfFuel ∨ C.stops e e') := by
  unfold Agrees at h
  rw [hp] at h
  cases hp' : p' r' with
  | ok a' s' =>
    rw [hp'] at h
    exact absurd h (not_or.mpr ⟨hfuel, hexcused⟩)
  | error e' s' =>
    rw [hp'] at h
    exact ⟨e', s', rfl, h.resolve_left (not_or.mpr ⟨hfuel, hexcused⟩)⟩

end Rules

/-! ## Looking at tokens and taking them -/

section Tokens

variable (hr : C.related r r')
include hr

/-- As long as the first reading has tokens, both show the same one. -/
theorem agrees_peek (h : r.front ≠ [] ∨ C.Full) :
    Agrees C peek peek r r' fun t r₁ r₁' =>
      r₁ = r ∧ r₁' = r' ∧ r.next? = some t ∧ C.known t := by
  cases hfront : r.front with
  | cons t front =>
    obtain ⟨hknown, front', hfront', -⟩ := C.taken hr hfront
    simp [Agrees, Comparison.Meet, peek, Reading.next?, hfront, hfront', hknown]
  | nil =>
    obtain ⟨e, he, hexcused⟩ | ⟨t, t', ht, -⟩ := C.ended hr hfront
    · have hstop : peek r = .error e r := by simp [peek, hfront, he]
      exact agrees_excused hstop hexcused
    · have hfull : C.Full := h.resolve_left (by simp [hfront])
      obtain ⟨hknown, hfront', hfinal'⟩ := hfull hr hfront ht
      simp [Agrees, Comparison.Meet, peek, Reading.next?, hfront, hfront', ht, hfinal', hknown]

/-- A look for kinds among which there are both ends or none of them. -/
theorem agrees_peekIs {kinds : List Kind} (h : .endOfInput ∈ kinds ↔ .newline ∈ kinds) :
    Agrees C (peekIs kinds) (peekIs kinds) r r' fun b r₁ r₁' =>
      r₁ = r ∧ r₁' = r' ∧ ∃ t, r.next? = some t ∧ b = t.isOneOf kinds := by
  by_cases hfront : r.front = []
  · obtain ⟨e, he, hexcused⟩ | ⟨t, t', ht, hkind, hnext', hkind', -⟩ := C.ended hr hfront
    · have hstop : peekIs kinds r = .error e r := by
        show EStateM.bind peek _ r = _
        simp [EStateM.bind, peek, hfront, he]
      exact agrees_excused hstop hexcused
    · have hlook : peekIs kinds r = .ok (t.isOneOf kinds) r := by
        show EStateM.bind peek _ r = _
        simp only [EStateM.bind, peek, hfront, ht]
        rfl
      have hlook' : peekIs kinds r' = .ok (t'.isOneOf kinds) r' := by
        show EStateM.bind peek _ r' = _
        unfold Reading.next? at hnext'
        unfold EStateM.bind peek
        split at hnext' <;> simp_all <;> rfl
      unfold Agrees
      rw [hlook, hlook']
      refine ⟨?_, rfl, rfl, t, by simp [Reading.next?, hfront, ht], rfl⟩
      rw [Bool.eq_iff_iff, isOneOf_iff, isOneOf_iff, hkind]
      rcases hkind' with hend | hbreak
      · rw [hend]
      · rw [hbreak, h]
  · refine agrees_bind (agrees_peek hr (.inl hfront)) ?_
    rintro t r₁ r₁' ⟨rfl, rfl, ht, -⟩
    exact agrees_pure ⟨rfl, rfl, t, ht, rfl⟩

/-- Both runs go on with the same kinds, as long as these are plain. -/
theorem agrees_continuesWith {kinds : List Kind} (h : Plain kinds) :
    Agrees C (continuesWith kinds) (continuesWith kinds) r r' fun b r₁ r₁' =>
      r₁ = r ∧ r₁' = r' ∧ (b = true → ∃ t, r.next? = some t ∧ t.isOneOf kinds = true) := by
  show Agrees C (if r.afterBreak then pure false else peekIs kinds)
    (if r'.afterBreak then pure false else peekIs kinds) r r' _
  rw [C.line hr]
  refine agrees_ite (fun _ => agrees_pure ⟨rfl, rfl, by simp⟩) fun _ => ?_
  refine agrees_mono (agrees_peekIs hr (by simp [h.1, h.2])) ?_
  rintro b r₁ r₁' ⟨rfl, rfl, t, ht, rfl⟩
  exact ⟨rfl, rfl, fun hone => ⟨t, ht, hone⟩⟩

/-- The next token can be taken if it is not the end. -/
theorem agrees_next {t : Token} (ht : r.next? = some t) (hkind : t.kind ≠ .endOfInput) :
    Agrees C next next r r' fun u r₁ r₁' => u = t ∧ C.known t ∧ C.related r₁ r₁' := by
  cases hfront : r.front with
  | nil =>
    unfold Reading.next? at ht
    obtain ⟨e, he, -⟩ | ⟨u, -, hu, hend, -⟩ := C.ended hr hfront
    · simp [hfront, he] at ht
    · simp only [hfront, hu, Option.some.injEq] at ht
      exact absurd (ht ▸ hend) hkind
  | cons u front =>
    obtain ⟨hknown, front', hfront', hrelated⟩ := C.taken hr hfront
    have hu : u = t := by simpa [Reading.next?, hfront] using ht
    subst hu
    unfold Agrees next
    rw [hfront, hfront']
    exact ⟨rfl, rfl, hknown, hrelated⟩

/-- A token that is wanted is taken by both runs, and any other is blamed by both. -/
theorem agrees_expect_cons {kinds : List Kind} {t : Token} {front : List Token}
    (hfront : r.front = t :: front) :
    Agrees C (expect kinds) (expect kinds) r r' fun u r₁ r₁' =>
      u.kind ∈ kinds ∧ C.known u ∧ C.related r₁ r₁' ∧ r.front = u :: r₁.front := by
  obtain ⟨hknown, front', hfront', hrelated⟩ := C.taken hr hfront
  refine agrees_bind (K := fun u r₁ r₁' => u = t ∧ C.related r₁ r₁' ∧ r₁.front = front) ?_ ?_
  · unfold Agrees next
    rw [hfront, hfront']
    exact ⟨rfl, rfl, hrelated, rfl⟩
  · rintro u r₁ r₁' ⟨rfl, hr₁, rfl⟩
    refine agrees_ite (fun hone => ?_) fun _ => ?_
    · exact agrees_pure ⟨isOneOf_iff.mp hone, hknown, hr₁, hfront⟩
    · exact .inr (.inr (C.blamed _ _ hknown))

/-- Both runs take a token of the kinds, or blame the same one, if neither can run into the end. -/
theorem agrees_expect_of {kinds : List Kind} (hend : .endOfInput ∉ kinds)
    (hbreak : .newline ∉ kinds ∨ C.Full) :
    Agrees C (expect kinds) (expect kinds) r r' fun t r₁ r₁' =>
      t.kind ∈ kinds ∧ C.known t ∧ C.related r₁ r₁' ∧ r.front = t :: r₁.front := by
  cases hfront : r.front with
  | cons t front =>
    rw [← hfront]
    exact agrees_expect_cons hr hfront
  | nil =>
    obtain ⟨e, he, hexcused⟩ | ⟨t, t', ht, hkind, hnext', hkind', hstops⟩ := C.ended hr hfront
    · have hstop : expect kinds r = .error e r := by
        show EStateM.bind next _ r = _
        simp [EStateM.bind, next, hfront, he]
      exact agrees_excused hstop hexcused
    · -- both runs take what they see, which is not wanted
      have hrefused : t.isOneOf kinds = false := by
        rw [← Bool.not_eq_true, isOneOf_iff, hkind]
        exact hend
      have hrefused' : t'.isOneOf kinds = false := by
        rw [← Bool.not_eq_true, isOneOf_iff]
        by_cases hsame : t'.kind = .endOfInput
        · rwa [hsame]
        · rw [hkind'.resolve_left hsame]
          refine hbreak.resolve_right fun hfull => hsame ?_
          obtain ⟨-, hfront', hfinal'⟩ := hfull hr hfront ht
          obtain rfl : t = t' := by simpa [Reading.next?, hfront', hfinal'] using hnext'
          exact hkind
      have hfail : ∃ left, expect kinds r =
          .error (.fault (.unexpected t.kind kinds "" t.pos)) left := by
        show ∃ left, EStateM.bind next _ r = _
        simp only [EStateM.bind, next, hfront, ht, hrefused]
        exact ⟨_, rfl⟩
      have hfail' : ∃ left, expect kinds r' =
          .error (.fault (.unexpected t'.kind kinds "" t'.pos)) left := by
        show ∃ left, EStateM.bind next _ r' = _
        unfold Reading.next? at hnext'
        unfold EStateM.bind next
        split at hnext' <;> simp_all <;> exact ⟨_, rfl⟩
      obtain ⟨left, hfail⟩ := hfail
      obtain ⟨left', hfail'⟩ := hfail'
      unfold Agrees
      rw [hfail, hfail']
      exact .inr (.inr (hstops kinds))

/-- Both runs take a token of plain kinds, or blame the same one. -/
theorem agrees_expect {kinds : List Kind} (h : Plain kinds) :
    Agrees C (expect kinds) (expect kinds) r r' fun t r₁ r₁' =>
      t.kind ∈ kinds ∧ C.known t ∧ C.related r₁ r₁' ∧ r.front = t :: r₁.front :=
  agrees_expect_of hr h.1 (.inl h.2)

omit hr in
/-- A known token is blamed alike in both runs. -/
theorem agrees_blame {α : Type} {t : Token} {K : α → Reading → Reading → Prop} (kinds : List Kind)
    (reason : String) (h : C.known t) :
    Agrees C (fail (.unexpected t.kind kinds reason t.pos))
      (fail (.unexpected t.kind kinds reason t.pos)) r r' K :=
  .inr (.inr (C.blamed kinds reason h))

/-- A note leaves related readings. -/
theorem agrees_note (pos : Position) (count : Nat) :
    Agrees C (note pos count) (note pos count) r r' fun _ r₁ r₁' => C.related r₁ r₁' :=
  ⟨rfl, C.noted _ _ hr⟩

/-- A stop at the end of the first reading is excused, however many tokens are before it. -/
theorem excused_of_final {h : Halt} (hfinal : r.final = .error h) : C.excused h := by
  induction hfront : r.front generalizing r r' with
  | nil =>
    obtain ⟨e, he, hexcused⟩ | ⟨t, -, ht, -⟩ := C.ended hr hfront
    · rw [hfinal] at he
      injection he with he
      rwa [he]
    · simp [hfinal] at ht
  | cons t front ih =>
    obtain ⟨-, front', -, hrelated⟩ := C.taken hr hfront
    exact ih hrelated hfinal rfl

/-- The readings stay related behind the line breaks if the first one has more tokens there, or if
the other one has no more either. -/
theorem related_pastBreaks
    (h : r.front.dropWhile Token.isBreak = [] → C.Full ∧ ∃ t, r.final = .ok t) :
    C.related r.pastBreaks r'.pastBreaks := by
  induction hfront : r.front generalizing r r' with
  | nil =>
    obtain ⟨hfull, t, ht⟩ := h (by simp [hfront])
    obtain ⟨-, hfront', -⟩ := hfull hr hfront ht
    rwa [pastBreaks_of_head (by simp [hfront]), pastBreaks_of_head (by simp [hfront'])]
  | cons t front ih =>
    obtain ⟨-, front', hfront', hrelated⟩ := C.taken hr hfront
    by_cases hbreak : t.isBreak = true
    · rw [pastBreaks_cons hfront hbreak, pastBreaks_cons hfront' hbreak]
      apply ih hrelated ?_ rfl
      intro hall
      apply h
      simpa [hfront, hbreak] using hall
    · rwa [pastBreaks_of_head (by simp [hfront, hbreak]),
        pastBreaks_of_head (by simp [hfront', hbreak])]

/-- Both runs skip the same line breaks, if something follows these. -/
theorem agrees_skipBreaks (h : r.front.dropWhile Token.isBreak ≠ [] ∨ C.Full) :
    Agrees C skipBreaks skipBreaks r r' fun _ r₁ r₁' =>
      C.related r₁ r₁' ∧ r₁ = r.pastBreaks ∧ r₁' = r'.pastBreaks := by
  by_cases hstop : r.front.dropWhile Token.isBreak = [] ∧ ∃ e, r.final = .error e
  · obtain ⟨hall, e, hfinal⟩ := hstop
    have hskip : skipBreaks r = .error e r.pastBreaks := by
      show EStateM.bind peek _ r.pastBreaks = _
      simp [EStateM.bind, peek, pastBreaks, hall, hfinal]
    exact agrees_excused hskip (excused_of_final hr hfinal)
  · have hpast : C.related r.pastBreaks r'.pastBreaks := by
      apply related_pastBreaks hr
      intro hall
      cases hfinal : r.final with
      | ok t => exact ⟨h.resolve_left (by simp [hall]), t, rfl⟩
      | error e => exact absurd ⟨hall, e, hfinal⟩ hstop
    refine agrees_bind (K := fun _ r₁ r₁' => r₁ = r.pastBreaks ∧ r₁' = r'.pastBreaks)
      ⟨rfl, rfl, rfl⟩ ?_
    rintro - r₁ r₁' ⟨rfl, rfl⟩
    refine agrees_bind (agrees_peek hpast h) ?_
    rintro t r₁ r₁' ⟨rfl, rfl, -⟩
    exact agrees_pure ⟨hpast, rfl, rfl⟩

/-- Both runs end a line, if they come to the same end. -/
theorem agrees_endLine (hfull : C.Full) :
    Agrees C endLine endLine r r' fun _ r₁ r₁' => C.related r₁ r₁' := by
  show Agrees C (if r.afterBreak then pure () else _) (if r'.afterBreak then pure () else _) r r' _
  rw [C.line hr]
  refine agrees_ite (fun _ => agrees_pure hr) fun _ => ?_
  refine agrees_bind (K := fun _ r₁ r₁' => r₁ = r ∧ r₁' = r') ?_ ?_
  · refine agrees_bind (agrees_peek hr (.inr hfull)) ?_
    rintro t r₁ r₁' ⟨rfl, rfl, -⟩
    exact agrees_pure ⟨rfl, rfl⟩
  · rintro b r₁ r₁' ⟨rfl, rfl⟩
    refine agrees_ite (fun _ => agrees_pure hr) fun _ => ?_
    refine agrees_bind (agrees_expect_of hr (by decide) (.inr hfull)) ?_
    rintro t r₂ r₂' ⟨-, -, hr₂, -⟩
    exact agrees_pure hr₂

/-- The opening of a block is read alike, or there is none. -/
theorem agrees_opening (hends : C.Full ∨ C.Flat) :
    Agrees C opening opening r r' fun _ r₁ r₁' => C.Full ∧ C.related r₁ r₁' := by
  refine agrees_bind (agrees_expect hr (by decide)) ?_
  rintro colon r₁ r₁' ⟨hcolon, -, hr₁, hfront⟩
  rcases hends with hfull | hflat
  · refine agrees_bind (agrees_expect_of hr₁ (by decide) (.inr hfull)) ?_
    rintro break_ r₂ r₂' ⟨-, -, hr₂, -⟩
    refine agrees_mono (agrees_skipBreaks hr₂ (.inr hfull)) ?_
    rintro - r₃ r₃' ⟨hr₃, -⟩
    exact ⟨hfull, hr₃⟩
  · obtain ⟨u, rest, hrest, hu⟩ := hflat hr hfront (List.mem_singleton.mp hcolon)
    refine agrees_bind (agrees_expect_cons hr₁ hrest) ?_
    rintro v r₂ r₂' ⟨hv, -, -, hsame⟩
    obtain ⟨rfl, -⟩ := List.cons.inj (hrest.symm.trans hsame)
    exact absurd (List.mem_singleton.mp hv) hu

end Tokens

end Grammar

end Offside
