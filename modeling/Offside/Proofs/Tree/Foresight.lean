import Offside.Proofs.Tree.Lockstep
import Offside.Proofs.Tree.StatementSound

/-!
# How far the grammar looks

Two comparisons say what an outcome depends on. Compared with itself, a run that stops blames one of
the tokens it was given (`Grammar.program_blames`). Compared with a run on a longer source, a run on
tokens that break off somewhere does the same until it has to look beyond them, and whatever it has
found out by then is final (`Comparison.longer`).
-/

set_option autoImplicit false

namespace Offside

/-- The stop is about a token with the property. -/
def Halt.Blames (T : Token → Prop) (h : Halt) : Prop :=
  ∃ t kinds reason, T t ∧ h = .fault (.unexpected t.kind kinds reason t.pos)

namespace Reading

/-- The token is to come, or it is the end. -/
def Holds (r : Reading) (t : Token) : Prop := t ∈ r.front ∨ r.final = .ok t

/-- The reading breaks off and does not come to an end before. -/
structure BreaksOff (cut : Halt) (r : Reading) : Prop where
  cut : r.final = .error cut
  notEnd : ∀ t ∈ r.front, t.kind ≠ .endOfInput

/-- The first reading breaks off where the second one goes on with the stream. -/
structure ContinuedBy (cut : Halt) (s : TokenStream) (r r' : Reading) : Prop
    extends BreaksOff cut r where
  front : r'.front = r.front ++ s.front
  final : r'.final = s.final
  line : r'.afterBreak = r.afterBreak

end Reading

namespace Grammar

open Reading

/-- A run is compared with itself: it stops at the end of the stream or blames a token of it. -/
def Comparison.itself (origin : Reading) (horigin : origin.Legal) : Comparison where
  related r r' := origin.Leads r ∧ r'.front = r.front ∧ r'.final = r.final ∧
    r'.afterBreak = r.afterBreak
  known := origin.Holds
  excused h := origin.final = .error h
  stops h _ := h.Blames origin.Holds
  line h := h.2.2.2
  noted _ _ h := ⟨⟨h.1.front, h.1.final⟩, h.2⟩
  taken {r r' t front} h hfront := by
    obtain ⟨hleads, hfront', hfinal, -⟩ := h
    have hsuffix : front <:+ r.front := hfront ▸ List.suffix_cons t front
    refine ⟨.inl (hleads.front.mem (by simp [hfront])), front, hfront' ▸ hfront, ?_⟩
    exact ⟨⟨hsuffix.trans hleads.front, hleads.final⟩, rfl, hfinal, rfl⟩
  ended {r r'} h hfront := by
    obtain ⟨hleads, hfront', hfinal, -⟩ := h
    have hlegal := (hleads.legal horigin).final
    cases hr : r.final with
    | error e => exact .inl ⟨e, rfl, hleads.final ▸ hr⟩
    | ok t =>
      have hend : t.kind = .endOfInput := by simpa only [hr] using hlegal
      refine .inr ⟨t, t, rfl, hend, ?_, .inl hend, fun kinds => ?_⟩
      · simp [next?, hfront', hfront, hfinal, hr]
      · exact ⟨t, kinds, "", .inr (hleads.final ▸ hr), rfl⟩
  blamed {t} kinds reason h := ⟨t, kinds, reason, h, rfl⟩

/-- A run and itself come to the same end. -/
theorem Comparison.itself_full {origin : Reading} (horigin : origin.Legal) :
    (Comparison.itself origin horigin).Full := by
  rintro r r' t ⟨hleads, hfront', hfinal, -⟩ hfront ht
  exact ⟨.inr (hleads.final ▸ ht), hfront' ▸ hfront, hfinal ▸ ht⟩

/-- A run on tokens that break off is compared with a run on the same tokens and more. -/
def Comparison.longer (cut : Halt) (s : TokenStream) : Comparison where
  related := ContinuedBy cut s
  known _ := True
  excused h := h = cut
  stops h h' := h' = h
  line h := h.line
  noted _ _ h := ⟨⟨h.cut, h.notEnd⟩, h.front, h.final, h.line⟩
  taken {r r' t front} h hfront := by
    have hmem := hfront ▸ h.notEnd
    refine ⟨trivial, front ++ s.front, by rw [h.front, hfront, List.cons_append], ?_⟩
    exact ⟨⟨h.cut, fun u hu => hmem u (List.mem_cons_of_mem _ hu)⟩, rfl, h.final, rfl⟩
  ended h _ := .inl ⟨cut, h.cut, rfl⟩
  blamed _ _ _ := rfl

/-- A run on tokens that break off does not come to an end. -/
theorem Comparison.longer_full {cut : Halt} {s : TokenStream} : (longer cut s).Full := by
  intro r r' t h _ ht
  rw [h.cut] at ht
  contradiction

/-- A program that cannot be read is refused at the end of the stream or for one of its tokens. -/
theorem program_blames {r left : Reading} {fuel : Nat} {e : Halt} (hr : r.Legal)
    (h : program fuel r = .error e left) :
    e = .outOfFuel ∨ r.final = .error e ∨ e.Blames r.Holds := by
  by_cases hfuel : e = .outOfFuel
  · exact .inl hfuel
  by_cases hfinal : r.final = .error e
  · exact .inr (.inl hfinal)
  have hagree := agrees_program (Comparison.itself_full hr) fuel fuel ⟨.refl r, rfl, rfl, rfl⟩
  obtain ⟨e', left', h', hstops⟩ := hagree.of_error h hfuel hfinal
  rw [h] at h'
  injection h' with he
  rw [← he] at hstops
  exact .inr (.inr (hstops.resolve_left hfuel))

end Grammar

/-- Why a piece of the grammar stops, if it does. -/
def Grammar.stop? {α : Type} (p : Grammar α) (r : Reading) : Option Halt :=
  match p r with
  | .ok _ _ => none
  | .error h _ => some h

namespace Parse

/-- A source has the stop of its program for its outcome. -/
theorem outcome_eq_error_iff_stop? {s : TokenStream} {h : Halt} : (ofStream s).outcome = .error h ↔
    (Grammar.program (fuelFor s.front.length)).stop? (.ofStream s) = some h := by
  unfold ofStream Grammar.stop?
  cases Grammar.program (fuelFor s.front.length) (.ofStream s) <;> simp

/-- A source has a tree for its outcome if its program does not stop. -/
theorem exists_outcome_iff {s : TokenStream} : (∃ tree, (ofStream s).outcome = .ok tree) ↔
    (Grammar.program (fuelFor s.front.length)).stop? (.ofStream s) = none := by
  unfold ofStream Grammar.stop?
  cases Grammar.program (fuelFor s.front.length) (.ofStream s) <;> simp

/-- A source has a stop for its outcome if its program stops so. -/
theorem outcome_eq_error_iff {s : TokenStream} {e : Halt} : (ofStream s).outcome = .error e ↔
    ∃ left, Grammar.program (fuelFor s.front.length) (.ofStream s) = .error e left := by
  unfold ofStream
  cases Grammar.program (fuelFor s.front.length) (.ofStream s) <;> simp

/-- A source has the block of its program's statements for its outcome. -/
theorem outcome_eq_ok_iff {s : TokenStream} {tree : Node} : (ofStream s).outcome = .ok tree ↔
    ∃ nodes left, Grammar.program (fuelFor s.front.length) (.ofStream s) = .ok nodes left ∧
      tree = .block .origin nodes := by
  unfold ofStream
  cases Grammar.program (fuelFor s.front.length) (.ofStream s) <;> simp [eq_comm]

/-- No source takes more fuel than it is given. -/
theorem outcome_ne_outOfFuel {s : TokenStream} (hs : s.Legal) :
    (ofStream s).outcome ≠ .error .outOfFuel := by
  intro h
  have hsound := ofStream_sound hs
  rw [h] at hsound
  obtain ⟨f, hf⟩ := hsound
  contradiction

/-- A stream that cannot be read is refused at its end or for one of its tokens. -/
theorem blames {s : TokenStream} (hs : s.Legal) {e : Halt}
    (h : (ofStream s).outcome = .error e) : s.final = .error e ∨ e.Blames (· ∈ s.toList) := by
  obtain ⟨left, hrun⟩ := outcome_eq_error_iff.mp h
  have hlegal : (Reading.ofStream s).Legal := hs
  obtain rfl | hfinal | ⟨t, kinds, reason, ht, hblame⟩ := Grammar.program_blames hlegal hrun
  · exact absurd h (outcome_ne_outOfFuel hs)
  · exact .inl hfinal
  · refine .inr ⟨t, kinds, reason, ?_, hblame⟩
    unfold TokenStream.toList
    rcases ht with ht | ht
    · cases s.final <;> simp_all [Reading.ofStream]
    · simp_all [Reading.ofStream]

/-- What comes of the first tokens of a stream comes of the stream, unless the place where they break
off is reached. -/
theorem outcome_of_front {s : TokenStream} (hs : s.Legal) {before : List Token} {cut : Halt}
    (hcut : cut.IsFault) (hbefore : before <+: s.front) :
    (ofStream ⟨before, .error cut⟩).outcome = .error cut ∨
      (ofStream s).outcome = (ofStream ⟨before, .error cut⟩).outcome := by
  obtain ⟨after, hafter⟩ := hbefore
  have hlegal : TokenStream.Legal ⟨before, .error cut⟩ :=
    ⟨fun t ht => hs.front t (hafter ▸ List.mem_append_left _ ht), hcut⟩
  have hlonger : Reading.ContinuedBy cut ⟨after, s.final⟩ (.ofStream ⟨before, .error cut⟩)
      (.ofStream s) :=
    ⟨⟨rfl, fun t ht => (hlegal.front t ht).notEnd⟩, hafter.symm, rfl, rfl⟩
  have hagree := Grammar.agrees_program (C := .longer cut ⟨after, s.final⟩)
    Grammar.Comparison.longer_full (fuelFor before.length) (fuelFor s.front.length) hlonger
  have hfuel := outcome_ne_outOfFuel hs
  cases hout : (ofStream ⟨before, .error cut⟩).outcome with
  | ok tree =>
    obtain ⟨nodes, left, hrun, rfl⟩ := outcome_eq_ok_iff.mp hout
    have hok := hagree.of_ok hrun
    unfold Grammar.Ensures at hok
    cases hrun' : Grammar.program (fuelFor s.front.length) (.ofStream s) with
    | ok nodes' left' =>
      rw [hrun'] at hok
      exact .inr (outcome_eq_ok_iff.mpr ⟨nodes', left', hrun', by rw [hok.1]⟩)
    | error e left' =>
      rw [hrun'] at hok
      exact absurd (outcome_eq_error_iff.mpr ⟨left', hok ▸ hrun'⟩) hfuel
  | error e =>
    by_cases hsame : e = cut
    · exact .inl (hsame ▸ rfl)
    · obtain ⟨left, hrun⟩ := outcome_eq_error_iff.mp hout
      have hstarved : e ≠ .outOfFuel := by
        rintro rfl
        exact outcome_ne_outOfFuel hlegal hout
      obtain ⟨e', left', hrun', hstops⟩ := hagree.of_error hrun hstarved hsame
      have hout' := outcome_eq_error_iff.mpr ⟨left', hrun'⟩
      obtain rfl : e' = e := hstops.resolve_left fun h => hfuel (h ▸ hout')
      exact .inr hout'

end Parse

end Offside
