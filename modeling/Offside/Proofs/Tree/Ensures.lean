import Offside.Proofs.Token.Legal
import Offside.Tree.Grammar

/-!
# What pieces of the grammar ensure

A piece of the grammar ensures a property of its result and of what is left to be read, if it gives
a result at all, and stops only for certain reasons. The rules below compose such facts along
sequences and state them for the pieces that look at tokens and take them.
-/

set_option autoImplicit false

namespace Offside

namespace Reading

/-- The next token, if a look at the stream shows one. -/
def next? (r : Reading) : Option Token :=
  match r.front, r.final with
  | t :: _, _ => some t
  | [], .ok t => some t
  | [], .error _ => none

/-- The tokens to come are legal, and the stream ends with the end of the source or with a fault. -/
def Legal (r : Reading) : Prop := TokenStream.Legal ⟨r.front, r.final⟩

/-- The second reading is the first one further on. -/
structure Leads (r r' : Reading) : Prop where
  front : r'.front <:+ r.front
  final : r'.final = r.final

/-- The second reading is the first one after at least one token. -/
structure Advances (r r' : Reading) : Prop extends Leads r r' where
  fewer : r'.front.length < r.front.length

/-- The second reading is the first one after the given token. -/
structure Takes (r : Reading) (t : Token) (r' : Reading) : Prop where
  front : r.front = t :: r'.front
  final : r'.final = r.final

variable {r r' r'' : Reading} {t : Token}

/-- A reading leads to itself. -/
theorem Leads.refl (r : Reading) : Leads r r := ⟨List.suffix_refl _, rfl⟩

/-- To lead on from where a reading leads is to lead on from the reading. -/
theorem Leads.trans (h₁ : Leads r r') (h₂ : Leads r' r'') : Leads r r'' :=
  ⟨h₂.front.trans h₁.front, h₂.final.trans h₁.final⟩

/-- A reading leads to one with no more tokens. -/
theorem Leads.length_le (h : Leads r r') : r'.front.length ≤ r.front.length := h.front.length_le

/-- What a legal reading leads to is legal. -/
theorem Leads.legal (h : Leads r r') (hr : r.Legal) : r'.Legal where
  front t ht := hr.front t (h.front.mem ht)
  final := by
    have hfinal := hr.final
    rw [← h.final] at hfinal
    exact hfinal

/-- What a legal reading advances to is legal. -/
theorem Advances.legal (h : Advances r r') (hr : r.Legal) : r'.Legal := h.toLeads.legal hr

/-- To advance and lead on is to advance. -/
theorem Advances.then_leads (h₁ : Advances r r') (h₂ : Leads r' r'') : Advances r r'' :=
  ⟨h₁.toLeads.trans h₂, Nat.lt_of_le_of_lt h₂.length_le h₁.fewer⟩

/-- To take a token is to advance. -/
theorem Takes.advances (h : Takes r t r') : Advances r r' where
  front := by
    rw [h.front]
    exact List.suffix_cons t r'.front
  final := h.final
  fewer := by
    rw [h.front, List.length_cons]
    exact Nat.lt_succ_self _

/-- A token that is taken from a legal reading is legal. -/
theorem Takes.legal (h : Takes r t r') (hr : r.Legal) : t.Legal := by
  apply hr.front
  show t ∈ r.front
  rw [h.front]
  exact List.mem_cons_self

/-- In a legal reading, a next token that is not the end stands in front of the end. -/
theorem Legal.front_eq (hr : r.Legal) (h : r.next? = some t) (ht : t.kind ≠ .endOfInput) :
    ∃ rest, r.front = t :: rest := by
  unfold next? at h
  cases hf : r.front with
  | cons u rest =>
    rw [hf] at h
    injection h with hu
    exact ⟨rest, by rw [hu]⟩
  | nil =>
    have hfinal := hr.final
    rw [hf] at h
    cases hfin : r.final with
    | error e => simp [hfin] at h
    | ok u =>
      simp only [hfin, Option.some.injEq] at h
      simp only [hfin] at hfinal
      rw [← h] at ht
      exact absurd hfinal ht

/-- Skipping line breaks does not move past a token that is none. -/
theorem Legal.next?_of_skipped {r' : Reading} (hr : r.Legal)
    (hskip : r'.front = r.front.dropWhile Token.isBreak) (h : r.next? = some t)
    (ht : t.kind ≠ .endOfInput) (hbreak : t.isBreak = false) : r'.next? = some t := by
  obtain ⟨rest, hrest⟩ := hr.front_eq h ht
  have hsame : r'.front = t :: rest := by
    rw [hskip, hrest, List.dropWhile_cons_of_neg]
    simp [hbreak]
  unfold next?
  rw [hsame]

end Reading

namespace Grammar

/-- The piece of the grammar, if it gives a result, gives one with the property, and otherwise stops
for one of the reasons. -/
def Ensures {α : Type} (E : Halt → Prop) (p : Grammar α) (r : Reading)
    (Q : α → Reading → Prop) : Prop :=
  match p r with
  | .ok a r' => Q a r'
  | .error h _ => E h

section Rules

variable {α β : Type} {E : Halt → Prop} {r : Reading}

/-- A result with the property is ensured. -/
theorem ensures_pure {a : α} {Q : α → Reading → Prop} (h : Q a r) :
    Ensures E (pure a : Grammar α) r Q := h

/-- A stop of the allowed sort is ensured. -/
theorem ensures_throw {e : Halt} {Q : α → Reading → Prop} (h : E e) :
    Ensures E (throw e : Grammar α) r Q := h

/-- A sequence ensures what its second part ensures after anything that the first part ensures. -/
theorem ensures_bind {p : Grammar α} {f : α → Grammar β} {P : α → Reading → Prop}
    {Q : β → Reading → Prop} (hp : Ensures E p r P)
    (hf : ∀ a r', P a r' → Ensures E (f a) r' Q) : Ensures E (p >>= f) r Q := by
  unfold Ensures at hp ⊢
  show match EStateM.bind p f r with
    | .ok a r' => Q a r'
    | .error h _ => E h
  unfold EStateM.bind
  cases hr : p r with
  | ok a r' =>
    rw [hr] at hp
    exact hf a r' hp
  | error e r' =>
    rw [hr] at hp
    exact hp

/-- What ensures a stronger property ensures a weaker one. -/
theorem ensures_mono {p : Grammar α} {P Q : α → Reading → Prop} (hp : Ensures E p r P)
    (h : ∀ a r', P a r' → Q a r') : Ensures E p r Q := by
  unfold Ensures at hp ⊢
  cases hr : p r with
  | ok a r' =>
    rw [hr] at hp
    exact h a r' hp
  | error e r' =>
    rw [hr] at hp
    exact hp

end Rules

/-! ## Looking at tokens and taking them -/

section Tokens

variable {r : Reading} (hr : r.Legal)
include hr

/-- A look at the next token takes nothing. -/
theorem ensures_peek :
    Ensures Halt.IsFault peek r fun t r' => r' = r ∧ r.next? = some t := by
  have hfinal := hr.final
  unfold Ensures peek Reading.next?
  cases hf : r.front with
  | cons t rest => exact ⟨rfl, rfl⟩
  | nil =>
    cases hfin : r.final with
    | ok t => exact ⟨rfl, rfl⟩
    | error e =>
      simp only [hfin] at hfinal
      exact hfinal

/-- A look at the kind of the next token takes nothing. -/
theorem ensures_peekIs (kinds : List Kind) :
    Ensures Halt.IsFault (peekIs kinds) r fun b r' =>
      r' = r ∧ ∃ t, r.next? = some t ∧ b = t.isOneOf kinds := by
  refine ensures_bind (ensures_peek hr) ?_
  rintro t r' ⟨rfl, ht⟩
  exact ensures_pure ⟨rfl, t, ht, rfl⟩

/-- A look at how a line continues takes nothing, and an affirmative answer is about the next token.
-/
theorem ensures_continuesWith (kinds : List Kind) :
    Ensures Halt.IsFault (continuesWith kinds) r fun b r' =>
      r' = r ∧ (b = true → ∃ t, r.next? = some t ∧ t.isOneOf kinds = true) := by
  show Ensures _ (if r.afterBreak then pure false else peekIs kinds) r _
  split
  · exact ensures_pure ⟨rfl, fun h => absurd h (by decide)⟩
  · refine ensures_mono (ensures_peekIs hr kinds) ?_
    rintro b r' ⟨rfl, t, ht, rfl⟩
    exact ⟨rfl, fun h => ⟨t, ht, h⟩⟩

/-- The next token can be taken if it is not the end. -/
theorem ensures_next {t : Token} (ht : r.next? = some t) (hk : t.kind ≠ .endOfInput) :
    Ensures Halt.IsFault next r fun u r' => u = t ∧ r.Takes t r' := by
  obtain ⟨rest, hf⟩ := hr.front_eq ht hk
  unfold Ensures next
  rw [hf]
  exact ⟨rfl, hf, rfl⟩

/-- A token that is taken because it is of one of the given kinds is not the end, unless the end is
among the kinds. -/
theorem ensures_expect {kinds : List Kind} (hk : Kind.endOfInput ∉ kinds) :
    Ensures Halt.IsFault (expect kinds) r fun t r' => t.kind ∈ kinds ∧ r.Takes t r' := by
  have hfinal := hr.final
  unfold expect
  show Ensures _ (EStateM.bind next _) r _
  unfold Ensures EStateM.bind next
  cases hf : r.front with
  | cons t rest =>
    by_cases hone : t.isOneOf kinds = true
    · simp only [hone, if_true]
      exact ⟨List.contains_iff_mem.mp hone, hf, rfl⟩
    · simp only [hone, Bool.false_eq_true, if_false]
      exact ⟨_, rfl⟩
  | nil =>
    cases hfin : r.final with
    | error e =>
      simp only [hfin] at hfinal
      exact hfinal
    | ok t =>
      simp only [hfin] at hfinal
      have hone : t.isOneOf kinds = false := by
        unfold Token.isOneOf
        rw [hfinal]
        simpa using hk
      simp only [hone, Bool.false_eq_true, if_false]
      exact ⟨_, rfl⟩

/-- All line breaks are skipped, and something else is next. -/
theorem ensures_skipBreaks :
    Ensures Halt.IsFault skipBreaks r fun _ r' =>
      r'.front = r.front.dropWhile Token.isBreak ∧ r'.final = r.final ∧
        ∃ t, r'.next? = some t ∧ t.isBreak = false := by
  unfold skipBreaks
  have hleads : r.Leads { r with
      front := r.front.dropWhile Token.isBreak
      afterBreak := r.afterBreak || r.front.head?.any Token.isBreak } :=
    ⟨List.dropWhile_suffix _, rfl⟩
  refine ensures_bind (P := fun _ r' => r' = { r with
      front := r.front.dropWhile Token.isBreak
      afterBreak := r.afterBreak || r.front.head?.any Token.isBreak }) rfl ?_
  rintro - r' rfl
  refine ensures_bind (ensures_peek (hleads.legal hr)) ?_
  rintro t r' ⟨rfl, ht⟩
  refine ensures_pure ⟨rfl, rfl, t, ht, ?_⟩
  unfold Reading.next? at ht
  cases hf : r.front.dropWhile Token.isBreak with
  | cons u rest =>
    have hhead := List.head?_dropWhile_not Token.isBreak r.front
    simp only [hf, Option.some.injEq] at ht hhead
    rw [← ht]
    simpa using hhead
  | nil =>
    have hfinal := hr.final
    cases hfin : r.final with
    | error e => simp [hf, hfin] at ht
    | ok u =>
      simp only [hf, hfin, Option.some.injEq] at ht hfinal
      rw [← ht]
      simp [Token.isBreak, hfinal]

/-- The end of a line leads on, or is a fault. -/
theorem ensures_endLine : Ensures Halt.IsFault endLine r fun _ r' => r.Leads r' := by
  show Ensures _ (if r.afterBreak then pure () else _) r _
  split
  · exact ensures_pure (.refl r)
  · refine ensures_bind (ensures_peekIs hr _) ?_
    rintro b r' ⟨rfl, -⟩
    split
    · exact ensures_pure (.refl _)
    · refine ensures_bind (ensures_expect hr (by decide)) ?_
      rintro t r'' ⟨-, htakes⟩
      exact ensures_pure htakes.advances.toLeads

/-- The opening of a block takes a colon and a line break at least, and the token after it is no
line break. -/
theorem ensures_opening :
    Ensures Halt.IsFault opening r fun _ r' =>
      r.Leads r' ∧ r'.front.length + 2 ≤ r.front.length ∧
        ∃ t, r'.next? = some t ∧ t.isBreak = false := by
  refine ensures_bind (ensures_expect hr (by decide)) ?_
  rintro colon r₁ ⟨-, hcolon⟩
  have hr₁ := hcolon.advances.legal hr
  refine ensures_bind (ensures_expect hr₁ (by decide)) ?_
  rintro break_ r₂ ⟨-, hbreak⟩
  refine ensures_mono (ensures_skipBreaks (hbreak.advances.legal hr₁)) ?_
  rintro - r₃ ⟨hfront, hfinal, hnext⟩
  have hskip : r₂.Leads r₃ := by
    refine ⟨?_, hfinal⟩
    rw [hfront]
    exact List.dropWhile_suffix _
  refine ⟨(hcolon.advances.toLeads.trans hbreak.advances.toLeads).trans hskip, ?_, hnext⟩
  have h₁ := hcolon.advances.fewer
  have h₂ := hbreak.advances.fewer
  have h₃ := hskip.length_le
  omega

end Tokens

end Grammar

end Offside
