import Offside.Proofs.Tree.Foresight
import Offside.Proofs.Tree.Phrases

/-!
# Sources that break off

A piece of the grammar is viable on tokens that break off if, whenever it gets as far as the place
where they do, some words can be written there with which it gives a result (`Grammar.Viable`). What
comes behind those words is up to the pieces around it, so a piece is viable with regard to what may
follow it, and a sequence is viable if its first part is and its second part has a phrase of its own
for every way in which the first one can end (`Grammar.viable_bind`).
-/

set_option autoImplicit false

namespace Offside

/-- The stop of a source that breaks off. The grammar itself never gives it. -/
def Halt.cut : Halt := .fault (.unterminatedString .start)

/-- The second reading is the first one with the pieces written where it breaks off. -/
def Reading.Resumes (r : Reading) (ps : List Piece) (r' : Reading) : Prop :=
  ∃ pos e, e.kind = .endOfInput ∧ ContinuedBy .cut ⟨Piece.tokens pos ps, .ok e⟩ r r'

/-- A reading that broke off at once stands in front of what is written there. -/
theorem Reading.Resumes.stands {r r' : Reading} {ps : List Piece} (h : r.Resumes ps r')
    (hfront : r.front = []) : r'.Stands r.afterBreak ps := by
  obtain ⟨pos, e, he, hr'⟩ := h
  exact ⟨⟨pos, by simp [hr'.front, hfront], e, hr'.final, he⟩, hr'.line⟩

/-- Pieces that do not start with a line break have no line break for their first token. -/
theorem Piece.head?_tokens {ps : List Piece} (h : nextKind ps ≠ .newline) (pos : Position) :
    (tokens pos ps).head?.any Token.isBreak = false := by
  induction ps generalizing pos with
  | nil => rfl
  | cons p rest ih =>
    cases p with
    | word k value => exact beq_eq_false_iff_ne.mpr h
    | newline => exact absurd rfl h
    | indent d => exact ih h _

/-- Where only line breaks are left, they can be skipped first. -/
theorem Reading.Resumes.pastBreaks {r r' : Reading} {ps : List Piece} (h : r.Resumes ps r')
    (hnil : r.pastBreaks.front = []) (hps : Piece.nextKind ps ≠ .newline) :
    r'.pastBreaks.Stands r.pastBreaks.afterBreak ps := by
  obtain ⟨pos, e, he, hr'⟩ := h
  have hhead := Piece.head?_tokens hps pos
  have hbreaks : r.front.dropWhile Token.isBreak = [] := hnil
  refine ⟨⟨pos, ?_, e, hr'.final, he⟩, ?_⟩
  · show r'.front.dropWhile Token.isBreak = _
    rw [hr'.front, List.dropWhile_append, hbreaks, List.isEmpty_nil, if_pos rfl]
    cases htokens : Piece.tokens pos ps with
    | nil => rfl
    | cons t rest => simp_all
  · show (r'.afterBreak || r'.front.head?.any Token.isBreak) =
      (r.afterBreak || r.front.head?.any Token.isBreak)
    rw [hr'.front, hr'.line]
    cases hfront : r.front with
    | nil => simp [hhead]
    | cons t front => rfl

namespace Grammar

open Reading Piece

/-- What may follow a piece of the grammar, after a line break or not. -/
abbrev Follow := Bool → List Piece → Prop

/-- Nothing follows. -/
def Last : Follow := fun _ rest => rest = []

/-- No line break follows. -/
def Inline : Follow := fun _ rest => nextKind rest ≠ .newline

/-- A closing parenthesis follows. -/
def Closed : Follow := fun _ rest => nextKind rest = .rightParen

/-- Anything may follow. -/
def Anything : Follow := fun _ _ => True

variable {α β : Type} {F G : Follow} {p : Nat → Grammar α} {f : Nat → α → Grammar β} {m : Nat}
  {r : Reading}

/-- Whatever the fuel and the like, the piece of the grammar takes the pieces and leaves what follows
them. -/
structure Phrase {ι : Type} (F : Follow) (p : ι → Grammar α) (b : Bool) (ps : List Piece)
    (b' : Bool) : Prop where
  proper : ∀ x ∈ ps, x.isProper = true
  yields : ∀ rest, F b' rest → ∀ i r, r.Stands b (ps ++ rest) →
    Yields (p i) r fun _ r' => r'.Stands b' rest

/-- Some pieces can be written where the reading breaks off with which the piece of the grammar gives
a result. -/
def Completes (F : Follow) (p : Nat → Grammar α) (r : Reading) : Prop :=
  ∃ ps b, (∀ x ∈ ps, x.isProper = true) ∧ ∀ rest, F b rest → ∀ n r', r.Resumes (ps ++ rest) r' →
    Yields (p n) r' fun _ r₁ => r₁.Stands b rest

/-- If the piece of the grammar gets to where the reading breaks off, it can be completed. -/
def Viable (F : Follow) (p : Nat → Grammar α) (m : Nat) (r : Reading) : Prop :=
  ∀ left, p m r = .error .cut left → Completes F p r

/-- The second part of a sequence has a phrase for every way in which the first part can end. -/
def Fresh (F G : Follow) (f : Nat → α → Grammar β) : Prop :=
  ∀ b, ∃ ps b', (∀ rest, G b' rest → F b (ps ++ rest)) ∧
    Phrase G (fun i : Nat × α => f i.1 i.2) b ps b'

/-- What the piece of the grammar finds out before the reading breaks off holds of longer ones. -/
def Steady (p : Nat → Grammar α) (m : Nat) (r : Reading) : Prop :=
  ∀ s n r', ContinuedBy .cut s r r' →
    Agrees (.longer .cut s) (p m) (p n) r r' fun _ => ContinuedBy .cut s

/-! ## Rules -/

/-- What a steady piece leaves of a reading that breaks off breaks off too. -/
theorem Steady.breaksOff {a : α} {r₁ : Reading} (h : Steady p m r) (hr : r.BreaksOff .cut)
    (hp : p m r = .ok a r₁) : r₁.BreaksOff .cut := by
  have hsame : ContinuedBy .cut ⟨[], .error .cut⟩ r r :=
    ⟨hr, (List.append_nil _).symm, hr.cut, rfl⟩
  have hok := (h _ m r hsame).of_ok hp
  unfold Ensures at hok
  rw [hp] at hok
  exact hok.2.toBreaksOff

/-- Where the reading breaks off at once, a phrase completes the piece. -/
theorem completes_of_nil (ps : List Piece) (b : Bool) (hnil : r.front = [])
    (h : Phrase F p r.afterBreak ps b) : Completes F p r :=
  ⟨ps, b, h.proper, fun rest hrest n r' hr' => h.yields rest hrest n r' (hr'.stands hnil)⟩

/-- A sequence is completed by completing its first part and writing a phrase for the second. -/
theorem completes_bind (hp : Completes F p r) (hf : Fresh F G f) :
    Completes G (fun n => p n >>= f n) r := by
  obtain ⟨ps, b, hps, hp⟩ := hp
  obtain ⟨qs, b', hfollow, hphrase⟩ := hf b
  refine ⟨ps ++ qs, b', List.forall_mem_append.mpr ⟨hps, hphrase.proper⟩, ?_⟩
  intro rest hrest n r' hr'
  rw [List.append_assoc] at hr'
  refine ensures_bind (hp _ (hfollow rest hrest) n r' hr') ?_
  intro a r₁ hr₁
  exact hphrase.yields rest hrest (n, a) r₁ hr₁

/-- What is viable in front of more is viable in front of less. -/
theorem viable_mono (hp : Viable F p m r) (h : ∀ b rest, G b rest → F b rest) :
    Viable G p m r := by
  intro left hleft
  obtain ⟨ps, b, hps, hp⟩ := hp left hleft
  exact ⟨ps, b, hps, fun rest hrest => hp rest (h b rest hrest)⟩

/-- A result does not get to where the reading breaks off. -/
theorem viable_pure (a : α) : Viable F (fun _ => pure a) m r := by
  intro left hleft
  cases hleft

/-- A token that is blamed has been seen. -/
theorem viable_fail (k : Kind) (kinds : List Kind) (reason : String) (pos : Position) :
    Viable F (fun _ => (fail (.unexpected k kinds reason pos) : Grammar α)) m r := by
  intro left hleft
  cases hleft

/-- A choice is viable if both cases are. -/
theorem viable_ite {q : Nat → Grammar α} {c : Prop} [Decidable c] (hp : c → Viable F p m r)
    (hq : ¬ c → Viable F q m r) : Viable F (fun n => if c then p n else q n) m r := by
  by_cases hc : c
  · simpa only [hc, if_true] using hp hc
  · simpa only [hc, if_false] using hq hc

/-- Without fuel a piece does not get to where the reading breaks off. -/
theorem viable_starved (h : p 0 = throw .outOfFuel) : Viable F p 0 r := by
  intro left hleft
  rw [h] at hleft
  cases hleft

/-- A call spends its unit of fuel before anything else. -/
theorem viable_succ (hzero : p 0 = throw .outOfFuel) (h : Viable F (fun n => p (n + 1)) m r) :
    Viable F p (m + 1) r := by
  intro left hleft
  obtain ⟨ps, b, hps, hp⟩ := h left hleft
  refine ⟨ps, b, hps, fun rest hrest n r' hr' => ?_⟩
  cases n with
  | zero =>
    rw [hzero]
    exact ensures_throw rfl
  | succ n => exact hp rest hrest n r' hr'

/-- The first part of a sequence is left behind where it gives a result, and the sequence is
completed as a whole where it does not. -/
theorem viable_step {S : Prop} {P : α → Reading → Prop} (hsteady : Steady p m r)
    (hr : r.BreaksOff .cut) (hp : Ensures (fun h => h = .cut → S) (p m) r P)
    (hstop : S → Completes G (fun n => p n >>= f n) r)
    (hf : ∀ a r₁, P a r₁ → r₁.BreaksOff .cut → Viable G (fun n => f n a) m r₁) :
    Viable G (fun n => p n >>= f n) m r := by
  intro left hleft
  have hrun : EStateM.bind (p m) (f m) r = .error .cut left := hleft
  unfold Ensures at hp
  unfold EStateM.bind at hrun
  cases hpr : p m r with
  | error h r₁ =>
    simp only [hpr, EStateM.Result.error.injEq] at hrun hp
    exact hstop (hp hrun.1)
  | ok a r₁ =>
    simp only [hpr] at hrun hp
    obtain ⟨ps, b, hps, hcomplete⟩ := hf a r₁ hp (hsteady.breaksOff hr hpr) left hrun
    refine ⟨ps, b, hps, fun rest hrest n r' hr' => ?_⟩
    -- the first part does the same on the longer reading and leaves a continuation of what it left
    obtain ⟨pos, e, he, hlonger⟩ := hr'
    refine ensures_bind ((hsteady _ n r' hlonger).of_ok hpr) ?_
    rintro a' r₁' ⟨rfl, hr₁'⟩
    exact hcomplete rest hrest n r₁' ⟨pos, e, he, hr₁'⟩

/-- A sequence is viable if its first part is, the second has phrases and is viable after each
result. -/
theorem viable_bind (hsteady : Steady p m r) (hr : r.BreaksOff .cut) (hp : Viable F p m r)
    (hfresh : Fresh F G f)
    (hf : ∀ a r₁, p m r = .ok a r₁ → r₁.BreaksOff .cut → Viable G (fun n => f n a) m r₁) :
    Viable G (fun n => p n >>= f n) m r := by
  refine viable_step (S := ∃ left, p m r = .error .cut left) (P := fun a r₁ => p m r = .ok a r₁)
    hsteady hr ?_ ?_ hf
  · unfold Ensures
    cases hrun : p m r with
    | ok a r₁ => exact rfl
    | error h left =>
      rintro rfl
      exact ⟨left, rfl⟩
  · rintro ⟨left, hrun⟩
    exact completes_bind (hp left hrun) hfresh

/-- What is done with the result alone does not matter. -/
theorem viable_map {g : α → β} (hp : Viable F p m r) :
    Viable F (fun n => do let a ← p n; pure (g a)) m r := by
  intro left hleft
  have hrun : EStateM.bind (p m) (fun a => pure (g a)) r = .error .cut left := hleft
  unfold EStateM.bind at hrun
  cases hpr : p m r with
  | ok a r₁ =>
    rw [hpr] at hrun
    cases hrun
  | error h r₁ =>
    simp only [hpr, EStateM.Result.error.injEq] at hrun
    refine completes_bind (hp r₁ (hrun.1 ▸ hpr)) fun b => ⟨[], b, fun _ h => h, ?_, ?_⟩
    · simp
    · intro rest _ i r' hr'
      exact ensures_pure hr'

/-! ## Looking at tokens and taking them -/

section Tokens

variable {kinds : List Kind} {q : Nat → Grammar β} {g : Nat → Token → Grammar β}
  (hr : r.BreaksOff .cut)
include hr

/-- A look stops with the reading only if no token is left. -/
theorem ensures_peek_cut : Ensures (fun h => h = .cut → r.front = []) peek r
    fun t r' => r' = r ∧ ∃ front, r.front = t :: front := by
  unfold Ensures peek
  cases hfront : r.front with
  | cons t front => exact ⟨rfl, front, rfl⟩
  | nil => simp [hr.cut]

/-- A look at the kind of the next token gets to the break only if nothing is in front of it. -/
theorem ensures_peekIs_cut : Ensures (fun h => h = .cut → r.front = []) (peekIs kinds) r
    fun b r' => r' = r ∧ ∃ t front, r.front = t :: front ∧ b = t.isOneOf kinds := by
  refine ensures_bind (ensures_peek_cut hr) ?_
  rintro t r' ⟨rfl, front, hfront⟩
  exact ensures_pure ⟨rfl, t, front, hfront, rfl⟩

/-- To take a token gets to the break only if nothing is in front of it. -/
theorem ensures_next_cut : Ensures (fun h => h = .cut → r.front = []) next r
    fun t r' => r.front = t :: r'.front ∧ r'.afterBreak = t.isBreak := by
  unfold Ensures next
  cases hfront : r.front with
  | cons t front => exact ⟨rfl, rfl⟩
  | nil => simp [hr.cut]

/-- To take a token of some kinds gets to the break only if nothing is in front of it. -/
theorem ensures_expect_cut : Ensures (fun h => h = .cut → r.front = []) (expect kinds) r
    fun t r' => t.kind ∈ kinds ∧ r'.afterBreak = t.isBreak := by
  refine ensures_bind (ensures_next_cut hr) ?_
  rintro t r' ⟨-, hline⟩
  split
  · exact ensures_pure ⟨isOneOf_iff.mp ‹_›, hline⟩
  · exact ensures_throw fun h => absurd h (by simp [Halt.cut])

omit hr

/-- The next token stays the same in longer readings. -/
theorem steady_peek : Steady (fun _ => peek) m r := by
  intro s n r' h
  refine agrees_mono (agrees_peek (C := .longer .cut s) h (.inr Comparison.longer_full)) ?_
  rintro t r₁ r₁' ⟨rfl, rfl, -⟩
  exact h

/-- The kind of the next token stays the same in longer readings. -/
theorem steady_peekIs : Steady (fun _ => peekIs kinds) m r := by
  intro s n r' h
  refine agrees_bind (steady_peek (m := m) s n r' h) ?_
  intro t r₁ r₁' hr₁
  exact agrees_pure hr₁

/-- The token that is taken stays the same in longer readings. -/
theorem steady_next : Steady (fun _ => next) m r := by
  intro s n r' h
  cases hfront : r.front with
  | nil =>
    have hstop : next r = .error .cut r := by simp [next, hfront, h.cut]
    exact agrees_excused hstop rfl
  | cons t front =>
    have ht : r.next? = some t := by simp [next?, hfront]
    have hkind : t.kind ≠ .endOfInput := h.notEnd t (by simp [hfront])
    refine agrees_mono (agrees_next (C := .longer .cut s) h ht hkind) ?_
    rintro u r₁ r₁' ⟨-, -, hr₁⟩
    exact hr₁

/-- The token that has to be of some kinds stays the same in longer readings. -/
theorem steady_expect (hkinds : .endOfInput ∉ kinds) : Steady (fun _ => expect kinds) m r := by
  intro s n r' h
  refine agrees_mono (agrees_expect_of (C := .longer .cut s) h hkinds
    (.inr Comparison.longer_full)) ?_
  rintro t r₁ r₁' ⟨-, -, hr₁, -⟩
  exact hr₁

include hr

/-- A look at the next token is viable if it can be completed at the break and is viable on each
token. -/
theorem viable_peek (hnil : r.front = [] → Completes G (fun n => peek >>= g n) r)
    (hg : ∀ t front, r.front = t :: front → Viable G (fun n => g n t) m r) :
    Viable G (fun n => peek >>= g n) m r := by
  refine viable_step steady_peek hr (ensures_peek_cut hr) hnil ?_
  rintro t r₁ ⟨rfl, front, hfront⟩ -
  exact hg t front hfront

/-- To take a token is viable if it can be completed at the break and is viable after each token. -/
theorem viable_next (hnil : r.front = [] → Completes G (fun n => next >>= g n) r)
    (hg : ∀ t r₁, r.front = t :: r₁.front → r₁.BreaksOff .cut → Viable G (fun n => g n t) m r₁) :
    Viable G (fun n => next >>= g n) m r := by
  refine viable_step steady_next hr (ensures_next_cut hr) hnil ?_
  rintro t r₁ ⟨hfront, -⟩ hr₁
  exact hg t r₁ hfront hr₁

/-- To take a token of some kinds is viable if it can be completed at the break and is viable after
each such token. -/
theorem viable_expect (hkinds : .endOfInput ∉ kinds)
    (hnil : r.front = [] → Completes G (fun n => expect kinds >>= g n) r)
    (hg : ∀ t r₁, t.kind ∈ kinds → r₁.afterBreak = t.isBreak → r₁.BreaksOff .cut →
      Viable G (fun n => g n t) m r₁) :
    Viable G (fun n => expect kinds >>= g n) m r := by
  refine viable_step (steady_expect hkinds) hr (ensures_expect_cut hr) hnil ?_
  rintro t r₁ ⟨hkind, hline⟩ hr₁
  exact hg t r₁ hkind hline hr₁

/-- A choice by the kind of the next token is viable if it can be completed at the break and both
cases are. -/
theorem viable_if_peekIs {p : Nat → Grammar β}
    (hnil : r.front = [] → Completes G (fun n => do if ← peekIs kinds then p n else q n) r)
    (hp : ∀ t front, r.front = t :: front → t.kind ∈ kinds → Viable G p m r)
    (hq : ∀ t front, r.front = t :: front → t.kind ∉ kinds → Viable G q m r) :
    Viable G (fun n => do if ← peekIs kinds then p n else q n) m r := by
  refine viable_step steady_peekIs hr (ensures_peekIs_cut hr) hnil ?_
  rintro b r₁ ⟨rfl, t, front, hfront, rfl⟩ -
  refine viable_ite (fun hone => ?_) fun hnone => ?_
  · exact hp t front hfront (isOneOf_iff.mp hone)
  · exact hq t front hfront (mt isOneOf_iff.mpr hnone)

/-- A token is taken if it is of one of the kinds. -/
theorem viable_choice
    (hnil : r.front = [] →
      Completes G (fun n => do if ← peekIs kinds then let t ← next; g n t else q n) r)
    (hg : ∀ t r₁, t.kind ∈ kinds → r₁.BreaksOff .cut → Viable G (fun n => g n t) m r₁)
    (hq : ∀ t front, r.front = t :: front → t.kind ∉ kinds → Viable G q m r) :
    Viable G (fun n => do if ← peekIs kinds then let t ← next; g n t else q n) m r := by
  refine viable_if_peekIs hr hnil (fun t front hfront hkind => ?_) hq
  refine viable_next hr (fun h => by simp [h] at hfront) ?_
  intro u r₁ hu hr₁
  obtain ⟨rfl, -⟩ := List.cons.inj (hfront.symm.trans hu)
  exact hg t r₁ hkind hr₁

/-- A token is taken if it continues the line as one of the kinds. -/
theorem viable_continue (hplain : Plain kinds)
    (hnil : r.front = [] →
      Completes G (fun n => do if ← continuesWith kinds then let t ← next; g n t else q n) r)
    (hg : ∀ t r₁, t.kind ∈ kinds → r₁.BreaksOff .cut → Viable G (fun n => g n t) m r₁)
    (hq : Viable G q m r) :
    Viable G (fun n => do if ← continuesWith kinds then let t ← next; g n t else q n) m r := by
  refine viable_step (P := fun b r₁ => r₁ = r ∧
    (b = true → ∃ t front, r.front = t :: front ∧ t.kind ∈ kinds)) ?_ hr ?_ hnil ?_
  · intro s n r' h
    refine agrees_mono (agrees_continuesWith (C := .longer .cut s) h hplain) ?_
    rintro b r₁ r₁' ⟨rfl, rfl, -⟩
    exact h
  · show Ensures _ (if r.afterBreak then pure false else peekIs kinds) r _
    split
    · exact ensures_pure ⟨rfl, by simp⟩
    · refine ensures_mono (ensures_peekIs_cut hr) ?_
      rintro b r₁ ⟨rfl, t, front, hfront, rfl⟩
      exact ⟨rfl, fun hone => ⟨t, front, hfront, isOneOf_iff.mp hone⟩⟩
  · rintro b r₁ ⟨rfl, hb⟩ -
    refine viable_ite (fun hone => ?_) fun _ => hq
    obtain ⟨t, front, hfront, hkind⟩ := hb hone
    refine viable_next hr (fun h => by simp [h] at hfront) ?_
    intro u r₂ hu hr₂
    obtain ⟨rfl, -⟩ := List.cons.inj (hfront.symm.trans hu)
    exact hg t r₂ hkind hr₂

/-- Line breaks are skipped up to a token, or nothing is left but line breaks. -/
theorem viable_skipBreaks {f : Nat → Unit → Grammar β}
    (hnil : r.pastBreaks.front = [] → Completes G (fun n => skipBreaks >>= f n) r)
    (hf : ∀ t front, r.pastBreaks.front = t :: front → r.pastBreaks.BreaksOff .cut →
      Viable G (fun n => f n ()) m r.pastBreaks) :
    Viable G (fun n => skipBreaks >>= f n) m r := by
  have hpast : r.pastBreaks.BreaksOff .cut :=
    ⟨hr.cut, fun t ht => hr.notEnd t ((List.dropWhile_suffix _).mem ht)⟩
  refine viable_step (P := fun _ r₁ => r₁ = r.pastBreaks ∧ ∃ t front,
    r.pastBreaks.front = t :: front) ?_ hr (S := r.pastBreaks.front = []) ?_ hnil ?_
  · intro s n r' h
    refine agrees_mono (agrees_skipBreaks (C := .longer .cut s) h
      (.inr Comparison.longer_full)) ?_
    rintro - r₁ r₁' ⟨hr₁, -⟩
    exact hr₁
  · refine ensures_bind (P := fun _ r₁ => r₁ = r.pastBreaks) rfl ?_
    rintro - r₁ rfl
    refine ensures_bind (ensures_peek_cut hpast) ?_
    rintro t r₁ ⟨rfl, front, hfront⟩
    exact ensures_pure ⟨rfl, t, front, hfront⟩
  · rintro - r₁ ⟨rfl, t, front, hfront⟩ hr₁
    exact hf t front hfront hr₁

/-- A line is over, or its end is to come, and the source has not ended. -/
theorem viable_endLine {f : Nat → Unit → Grammar β}
    (hnil : r.front = [] → r.afterBreak = false → Completes G (fun n => endLine >>= f n) r)
    (hf : ∀ r₁, r₁.afterBreak = true → r₁.BreaksOff .cut → Viable G (fun n => f n ()) m r₁) :
    Viable G (fun n => endLine >>= f n) m r := by
  refine viable_step (P := fun _ r₁ => r₁.afterBreak = true) ?_ hr
    (S := r.front = [] ∧ r.afterBreak = false) ?_ (fun h => hnil h.1 h.2)
    (fun _ r₁ hline hr₁ => hf r₁ hline hr₁)
  · intro s n r' h
    exact agrees_endLine (C := .longer .cut s) h Comparison.longer_full
  · show Ensures _ (if r.afterBreak then pure () else _) r _
    cases hline : r.afterBreak with
    | true => exact ensures_pure hline
    | false =>
      simp only [Bool.false_eq_true, if_false, and_true]
      refine ensures_bind (ensures_peekIs_cut hr) ?_
      rintro b r₁ ⟨rfl, t, front, hfront, rfl⟩
      have hend : t.isOneOf [.endOfInput] = false := by
        have hne := hr.notEnd t (by simp [hfront])
        simpa [Token.isOneOf] using hne
      simp only [hend, Bool.false_eq_true, if_false]
      refine ensures_bind (ensures_expect_cut hr) ?_
      rintro u r₂ ⟨hu, hbreak⟩
      refine ensures_pure (hbreak.trans ?_)
      simp [Token.isBreak, List.mem_singleton.mp hu]

end Tokens

/-- Line breaks that are already past need not be skipped. -/
theorem skipBreaks_pastBreaks (r : Reading) : skipBreaks r.pastBreaks = skipBreaks r := by
  have hsame : r.pastBreaks.pastBreaks = r.pastBreaks := by
    apply pastBreaks_of_head
    have hhead := List.head?_dropWhile_not Token.isBreak r.front
    cases hd : r.front.dropWhile Token.isBreak with
    | nil => simp [pastBreaks, hd]
    | cons t front => simp_all [pastBreaks]
  show EStateM.bind peek _ r.pastBreaks.pastBreaks = EStateM.bind peek _ r.pastBreaks
  rw [hsame]

/-- What is yielded past the line breaks is yielded where these are skipped first. -/
theorem yields_pastBreaks {f : Unit → Grammar β} {Q : β → Reading → Prop}
    (h : Yields (skipBreaks >>= f) r.pastBreaks Q) : Yields (skipBreaks >>= f) r Q := by
  have hsame : (skipBreaks >>= f) r.pastBreaks = (skipBreaks >>= f) r := by
    show EStateM.bind skipBreaks f r.pastBreaks = EStateM.bind skipBreaks f r
    unfold EStateM.bind
    rw [skipBreaks_pastBreaks]
  unfold Yields Ensures at h ⊢
  rwa [hsame] at h

/-- Behind line breaks, a phrase that starts with none is read as if they were not there. -/
theorem completes_pastBreaks {f : Nat → Unit → Grammar β} (ps : List Piece) (b : Bool)
    (hnil : r.pastBreaks.front = [])
    (h : Phrase G (fun n => skipBreaks >>= f n) r.pastBreaks.afterBreak ps b)
    (hps : ∀ rest, G b rest → nextKind (ps ++ rest) ≠ .newline) :
    Completes G (fun n => skipBreaks >>= f n) r := by
  refine ⟨ps, b, h.proper, fun rest hrest n r' hr' => ?_⟩
  exact yields_pastBreaks (h.yields rest hrest n _ (hr'.pastBreaks hnil (hps rest hrest)))

/-! ## Expressions -/

variable {rest : List Piece}

/-- What is in lockstep with itself on longer readings is steady. -/
theorem steady_of_lockstep {p : Nat → Grammar α}
    (h : ∀ s n, Lockstep (.longer .cut s) (p m) (p n)) : Steady p m r :=
  fun s n _ hr' => h s n hr'

/-- An expression stays the same in longer readings. -/
theorem steady_expression (lv : List (List Kind)) (hlv : lv <:+ levels) :
    Steady (fun n => expression n lv) m r := by
  have hplain : ∀ level ∈ levels, Plain level := by decide
  refine steady_of_lockstep fun s n => ?_
  exact (expressionsAgree (.inl Comparison.longer_full) m n).expression lv
    fun level hlevel => hplain level (hlv.mem hlevel)

/-- The colon and the line breaks that open arms or a block stay the same in longer readings. -/
theorem steady_opening : Steady (fun _ => opening) m r := by
  intro s n r' h
  refine agrees_mono (agrees_opening (C := .longer .cut s) h (.inl Comparison.longer_full)) ?_
  rintro - r₁ r₁' ⟨-, hr₁⟩
  exact hr₁

/-- Line breaks that are skipped up to the break can be followed by something else. -/
theorem viable_skipBreaks_last (hr : r.BreaksOff .cut) :
    Viable Inline (fun _ => skipBreaks) m r := by
  have hskip : Viable Inline (fun _ => skipBreaks >>= pure) m r := by
    refine viable_skipBreaks hr (fun hnil => ?_) fun _ _ _ _ => viable_pure ()
    refine completes_pastBreaks [] r.pastBreaks.afterBreak hnil ⟨by simp, ?_⟩
      (fun _ hrest => hrest)
    intro rest hrest _ r' hr'
    refine ensures_bind (yields_skipBreaks hr'.shows hrest) ?_
    rintro - r₁ rfl
    exact ensures_pure hr'
  simpa only [bind_pure] using hskip

/-- The colon and the line breaks that open arms or a block can be completed. -/
theorem viable_opening (hr : r.BreaksOff .cut) : Viable Inline (fun _ => opening) m r := by
  refine viable_expect hr (by decide) (fun hnil => ?_) fun colon r₁ _ _ hr₁ => ?_
  · refine completes_of_nil [.fixed .colon, .newline] true hnil ⟨by decide, ?_⟩
    intro rest hrest _ r' hr'
    refine ensures_mono (yields_opening hr'.shows hrest) ?_
    rintro - r₁ ⟨hr₁, hline⟩
    exact ⟨hr₁.shows, hline⟩
  · refine viable_expect hr₁ (by decide) (fun hnil => ?_)
      fun break_ r₂ _ _ hr₂ => viable_skipBreaks_last hr₂
    refine completes_of_nil [.newline] true hnil ⟨by decide, ?_⟩
    intro rest hrest _ r' hr'
    refine ensures_bind (yields_newline hr'.shows) ?_
    rintro - r₂ ⟨hr₂, hline⟩
    refine ensures_mono (yields_skipBreaks hr₂.shows hrest) ?_
    rintro - r₃ rfl
    exact ⟨hr₂.shows, hline⟩

/-- A token that is taken decides whether a line break was just taken. -/
theorem ensures_expect_line (kinds : List Kind) (r : Reading) :
    Ensures (fun _ => True) (expect kinds) r fun t r' =>
      t.kind ∈ kinds ∧ r'.afterBreak = t.isBreak := by
  refine ensures_bind (P := fun t r' => r'.afterBreak = t.isBreak) ?_ ?_
  · unfold Ensures next
    cases r.front with
    | nil => cases r.final <;> trivial
    | cons t front => exact rfl
  · intro t r' hline
    split
    · exact ensures_pure ⟨isOneOf_iff.mp ‹_›, hline⟩
    · exact ensures_throw trivial

/-- Behind the opening of a block, the reading is at the start of a line. -/
theorem afterBreak_of_opening {r₁ : Reading} {u : Unit} (h : opening r = .ok u r₁) :
    r₁.afterBreak = true := by
  have hopening : Ensures (fun _ => True) opening r fun _ r' => r'.afterBreak = true := by
    refine ensures_bind (ensures_expect_line _ r) ?_
    rintro colon r' -
    refine ensures_bind (ensures_expect_line _ r') ?_
    rintro t r₂ ⟨ht, hline⟩
    have hbreak : t.isBreak = true := by simp [Token.isBreak, List.mem_singleton.mp ht]
    refine ensures_bind (P := fun _ r' => r'.afterBreak = true) ?_ ?_
    · show (r₂.afterBreak || _) = true
      simp [hline, hbreak]
    · intro _ r₃ hr₃
      refine ensures_bind (P := fun _ r' => r'.afterBreak = true) ?_ fun _ _ h => ensures_pure h
      unfold Ensures peek
      cases r₃.front with
      | nil => cases r₃.final <;> trivial
      | cons t front => exact hr₃
  unfold Ensures at hopening
  rwa [h] at hopening

/-- A closing parenthesis can be written where it is missing. -/
theorem viable_close (hr : r.BreaksOff .cut) (a : α) :
    Viable F (fun _ => do let _ ← expect [.rightParen]; pure a) m r := by
  refine viable_expect hr (by decide) (fun hnil => ?_) fun _ _ _ _ _ => viable_pure a
  refine completes_of_nil [.fixed .rightParen] false hnil ⟨by decide, ?_⟩
  intro rest _ _ r' hr'
  exact yields_close hr'.shows a

/-- The literal of a whole number takes no further token. -/
theorem viable_integerLiteral (tok : Token) : Viable F (fun _ => integerLiteral tok) m r := by
  unfold integerLiteral
  exact viable_ite (fun _ => viable_pure _) fun _ => viable_fail _ _ _ _

/-- The literal of a double takes no further token. -/
theorem viable_floatLiteral (tok : Token) : Viable F (fun _ => floatLiteral tok) m r := by
  unfold floatLiteral
  cases Numeral.finite? tok.value.toList with
  | some x => exact viable_pure _
  | none => exact viable_fail _ _ _ _

/-- What holds of the pieces of the grammar for expressions with the given amount of fuel. -/
structure ExpressionsViable (m : Nat) : Prop where
  expression : ∀ lv, lv <:+ levels → ∀ {r : Reading}, r.BreaksOff .cut →
    Viable Follows (fun n => expression n lv) m r
  operations : ∀ level tighter left, (level :: tighter) <:+ levels → ∀ {r : Reading},
    r.BreaksOff .cut → Viable Follows (fun n => operations n level tighter left) m r
  unary : ∀ {r : Reading}, r.BreaksOff .cut → Viable Follows unary m r
  atom : ∀ {r : Reading}, r.BreaksOff .cut → Viable Follows atom m r
  arguments : ∀ {r : Reading}, r.BreaksOff .cut → Viable Anything arguments m r
  moreArguments : ∀ {r : Reading}, r.BreaksOff .cut → Viable Closed moreArguments m r
  arms : ∀ column, ∀ {r : Reading}, r.BreaksOff .cut → r.afterBreak = true →
    Viable Follows (fun n => arms n column) m r

/-- A closing parenthesis may follow an expression. -/
theorem Closed.follows {b : Bool} (h : Closed b rest) : Follows b rest := by
  have hkind : nextKind rest = .rightParen := h
  exact ⟨hkind ▸ by decide, fun _ => hkind ▸ by decide⟩

/-- A closing parenthesis is no comma. -/
theorem Closed.ne_comma {b : Bool} (h : Closed b rest) : nextKind rest ≠ .comma := by
  have hkind : nextKind rest = .rightParen := h
  simp [hkind]

section Expressions

variable (ih : ExpressionsViable m) (hr : r.BreaksOff .cut)
include ih hr

/-- Expressions of all levels that break off can be completed. -/
theorem ExpressionsViable.whole : Viable Follows (fun n => Grammar.expression n levels) m r :=
  ih.expression levels (List.suffix_refl _) hr

/-- A sequence that starts with an expression. -/
theorem viable_bind_expression {f : Nat → Node → Grammar α} (hfresh : Fresh Follows G f)
    (hf : ∀ node r₁, r₁.BreaksOff .cut → Viable G (fun n => f n node) m r₁) :
    Viable G (fun n => do let node ← Grammar.expression n levels; f n node) m r :=
  viable_bind (steady_expression levels (List.suffix_refl _)) hr (ih.whole hr) hfresh
    fun node r₁ _ hr₁ => hf node r₁ hr₁

omit ih hr in
/-- Operations behind an operand have a phrase: nothing. -/
theorem fresh_operations {level : List Kind} {tighter : List (List Kind)}
    (h : (level :: tighter) <:+ levels) (g : Node → Node) :
    Fresh Follows Follows fun n left => operations n level tighter (g left) := by
  refine fun b => ⟨[], b, fun _ h => h, by simp, ?_⟩
  intro rest hrest i r' hr'
  exact yields_operations_none (fun _ => mem_binaryOperators h) hr' hrest i.1

/-- An expression of a level that breaks off can be completed. -/
theorem viable_expression (lv : List (List Kind)) (hlv : lv <:+ levels) :
    Viable Follows (fun n => expression (n + 1) lv) m r := by
  cases lv with
  | nil =>
    simp only [expression]
    exact ih.unary hr
  | cons level tighter =>
    have htighter : tighter <:+ levels := (List.suffix_cons level tighter).trans hlv
    simp only [expression]
    refine viable_bind (steady_expression tighter htighter) hr (ih.expression tighter htighter hr)
      (fresh_operations hlv id) ?_
    intro left r₁ _ hr₁
    exact ih.operations level tighter left hlv hr₁

/-- Operations that break off can be completed. -/
theorem viable_operations (level : List Kind) (tighter : List (List Kind)) (left : Node)
    (hlv : (level :: tighter) <:+ levels) :
    Viable Follows (fun n => operations (n + 1) level tighter left) m r := by
  have htighter : tighter <:+ levels := (List.suffix_cons level tighter).trans hlv
  have hplain : ∀ level ∈ levels, Plain level := by decide
  have hnil : r.front = [] →
      Completes Follows (fun n => operations (n + 1) level tighter left) r := by
    refine fun hnil => completes_of_nil [] r.afterBreak hnil ⟨by simp, ?_⟩
    intro rest hrest n r' hr'
    exact yields_operations_none (fun _ => mem_binaryOperators hlv) hr' hrest (n + 1)
  simp only [operations] at hnil ⊢
  refine viable_continue hr (hplain level (hlv.mem List.mem_cons_self)) hnil ?_ (viable_pure left)
  intro tok r₁ _ hr₁
  refine viable_bind (steady_expression tighter htighter) hr₁ (ih.expression tighter htighter hr₁)
    (fresh_operations hlv _) ?_
  intro right r₂ _ hr₂
  exact ih.operations level tighter _ hlv hr₂

/-- An operand with its sign that breaks off can be completed. -/
theorem viable_unary : Viable Follows (fun n => unary (n + 1)) m r := by
  have hnil : r.front = [] → Completes Follows (fun n => unary (n + 1)) r := by
    refine fun hnil => completes_of_nil [.truth] false hnil ⟨by decide, ?_⟩
    intro rest hrest n r' hr'
    exact yields_unary_truth hr'.shows hrest.closes (n + 1)
  simp only [unary] at hnil ⊢
  exact viable_choice hr hnil (fun tok r₁ _ hr₁ => viable_map (ih.unary hr₁))
    fun _ _ _ _ => ih.atom hr

/-- Arguments that break off can be completed with their closing parenthesis. -/
theorem viable_arguments : Viable Anything (fun n => arguments (n + 1)) m r := by
  have hnil : r.front = [] → Completes Anything (fun n => arguments (n + 1)) r := by
    refine fun hnil => completes_of_nil [.fixed .rightParen] false hnil ⟨by decide, ?_⟩
    intro rest _ n r' hr'
    exact yields_arguments_none hr'.shows (n + 1)
  simp only [arguments] at hnil ⊢
  refine viable_if_peekIs hr hnil (fun _ _ _ _ => viable_close hr []) fun _ _ _ _ => ?_
  refine viable_bind_expression ih hr ?_ ?_
  · refine fun b => ⟨[.fixed .rightParen], false, fun _ _ => follows_fixed (by decide) (by decide),
      by decide, ?_⟩
    intro rest _ i r' hr'
    exact yields_listEnd (yields_moreArguments_none hr' (by simp [nextKind, Piece.fixed]) i.1) i.2
  · intro arg r₁ hr₁
    refine viable_bind (F := Closed) ?_ hr₁ (ih.moreArguments hr₁) ?_
      fun _ r₂ _ hr₂ => viable_close hr₂ _
    · exact steady_of_lockstep fun s n =>
        (expressionsAgree (.inl Comparison.longer_full) m n).moreArguments
    · refine fun b => ⟨[.fixed .rightParen], false, fun _ _ => rfl, by decide, ?_⟩
      intro rest _ i r' hr'
      exact yields_close hr'.shows _

/-- Further arguments that break off can be completed up to the closing parenthesis. -/
theorem viable_moreArguments : Viable Closed (fun n => moreArguments (n + 1)) m r := by
  have hnil : r.front = [] → Completes Closed (fun n => moreArguments (n + 1)) r := by
    refine fun hnil => completes_of_nil [] r.afterBreak hnil ⟨by simp, ?_⟩
    intro rest hrest n r' hr'
    exact yields_moreArguments_none hr' hrest.ne_comma (n + 1)
  simp only [moreArguments] at hnil ⊢
  refine viable_choice hr hnil (fun comma r₁ _ hr₁ => ?_) fun _ _ _ _ => viable_pure []
  refine viable_bind_expression ih hr₁ ?_ fun _ r₂ hr₂ => viable_map (ih.moreArguments hr₂)
  refine fun b => ⟨[], b, fun _ h => h.follows, by simp, ?_⟩
  intro rest hrest i r' hr'
  exact yields_map (yields_moreArguments_none hr' hrest.ne_comma i.1)

/-- An arm after its pattern. -/
theorem viable_armResult (column : Int) (g : Node → Arms → Arms) :
    Viable Follows (fun n => do
      let _ ← expect [.arrow]
      let result ← expression n levels
      endLine
      let more ← arms n column
      pure (g result more)) m r := by
  refine viable_expect hr (by decide) (fun hnil => ?_) fun arrow r₁ _ _ hr₁ => ?_
  · refine completes_of_nil [.fixed .arrow, .truth, .newline] true hnil ⟨by decide, ?_⟩
    intro rest hrest n r' hr'
    exact yields_armResult hr'.shows hrest column g n
  refine viable_bind_expression ih hr₁ ?_ ?_
  · refine fun b => ⟨lineEnd b, true, ?_, by cases b <;> decide, ?_⟩
    · intro rest hrest
      cases b with
      | true => exact hrest
      | false => exact ⟨by simp [lineEnd, nextKind, followKinds], by simp⟩
    · intro rest hrest i r' hr'
      exact yields_armEnd hr' hrest column (g i.2) i.1
  · intro result r₂ hr₂
    -- a selection in the result took the line break itself, so there is one to write only without
    refine viable_endLine hr₂ (fun hnil hline => ?_) fun r₃ hline hr₃ =>
      viable_map (ih.arms column hr₃ hline)
    refine completes_of_nil [.newline] true hnil ⟨by decide, ?_⟩
    intro rest hrest n r' hr'
    rw [hline] at hr'
    exact yields_armEnd hr' hrest column (g result) n

/-- Arms that break off can be completed. -/
theorem viable_arms (column : Int) (hline : r.afterBreak = true) :
    Viable Follows (fun n => arms (n + 1) column) m r := by
  -- with only line breaks to come the selection may be over, and its last one has been taken
  have hpast : r.pastBreaks.afterBreak = true := by simp [pastBreaks, hline]
  have hnone : Phrase Follows (fun n => arms (n + 1) column) r.pastBreaks.afterBreak [] true := by
    refine ⟨by simp, fun rest hrest n r' hr' => ?_⟩
    rw [hpast] at hr'
    have hbar : nextKind rest ≠ .bar := by simpa using hrest.not_mem [.bar] (by decide)
    exact yields_arms_none hr' (hrest.line rfl) hbar column (n + 1)
  simp only [arms] at hnone ⊢
  refine viable_skipBreaks hr (fun h => completes_pastBreaks [] true h hnone ?_) ?_
  · intro rest hrest
    exact hrest.line rfl
  intro tok front hfront hr₁
  refine viable_peek hr₁ (fun h => by simp [h] at hfront) fun u front' _ => ?_
  refine viable_ite (fun _ => ?_) fun _ => viable_pure Arms.done
  refine viable_next hr₁ (fun h => by simp [h] at hfront) fun bar r₂ _ hr₂ => ?_
  refine viable_choice hr₂ (fun hnil => ?_) (fun times r₃ _ hr₃ => ?_) fun _ _ _ _ => ?_
  · refine completes_of_nil [.fixed .times, .fixed .arrow, .truth, .newline] true hnil
      ⟨by decide, ?_⟩
    intro rest hrest n r' hr'
    refine yields_if_peekIs hr'.shows (List.mem_singleton_self _) ?_
    refine ensures_bind (yields_next hr'.shows (by decide)) ?_
    rintro - r₃ ⟨-, -, hr₃, -⟩
    exact yields_armResult hr₃ hrest column _ n
  · exact viable_armResult ih hr₃ column (.wildcard u)
  · refine viable_bind_expression ih hr₂ ?_
      fun pattern r₃ hr₃ => viable_armResult ih hr₃ column (.pattern u pattern)
    refine fun b => ⟨[.fixed .arrow, .truth, .newline], true,
      fun _ _ => follows_fixed (by decide) (by decide), by decide, ?_⟩
    intro rest hrest i r' hr'
    exact yields_armResult hr'.shows hrest column _ i.1

/-- A selection after its first word. -/
theorem viable_select (tok : Token) :
    Viable Follows (fun n => do
      let subject ← expression n levels
      opening
      let first ← peek
      if first.kind = .bar then
        let arms ← Grammar.arms n first.pos.column
        pure (Node.select tok subject arms)
      else fail (.unexpected first.kind [.bar] "" first.pos)) m r := by
  refine viable_bind_expression ih hr ?_ ?_
  · refine fun b => ⟨.fixed .colon :: .newline :: wildcardArm, true,
      fun _ _ => follows_fixed (by decide) (by decide), by decide, ?_⟩
    intro rest hrest i r' hr'
    exact yields_select hr'.shows hrest _ i.1
  intro subject r₁ hr₁
  refine viable_bind (F := Inline) steady_opening hr₁ (viable_opening hr₁) ?_ ?_
  · refine fun b => ⟨wildcardArm, true, fun _ _ => by simp [Inline, nextKind_wildcardArm],
      by decide, ?_⟩
    intro rest hrest i r' hr'
    exact yields_firstArm hr'.shows hrest _ i.1
  intro _ r₂ hopening hr₂
  refine viable_peek hr₂ (fun hnil => ?_) fun first front _ => ?_
  · refine completes_of_nil wildcardArm true hnil ⟨by decide, ?_⟩
    intro rest hrest n r' hr'
    exact yields_firstArm hr'.shows hrest _ n
  · refine viable_ite (fun _ => ?_) fun _ => viable_fail _ _ _ _
    exact viable_map (ih.arms _ hr₂ (afterBreak_of_opening hopening))

/-- An atom that breaks off can be completed. -/
theorem viable_atom : Viable Follows (fun n => atom (n + 1)) m r := by
  have hnil : r.front = [] → Completes Follows (fun n => atom (n + 1)) r := by
    refine fun hnil => completes_of_nil [.truth] false hnil ⟨by decide, ?_⟩
    intro rest _ n r' hr'
    exact yields_atom_truth hr'.shows (n + 1)
  simp only [atom] at hnil ⊢
  refine viable_expect hr (by decide) hnil fun tok r₁ hkind _ hr₁ => ?_
  simp only [atomKinds, List.mem_cons, List.not_mem_nil, or_false] at hkind
  rcases hkind with hk | hk | hk | hk | hk | hk | hk <;> simp only [hk]
  · exact viable_integerLiteral tok
  · exact viable_floatLiteral tok
  · exact viable_pure _
  · exact viable_pure _
  · refine viable_bind_expression ih hr₁ ?_ fun inner r₂ hr₂ => viable_close hr₂ inner
    refine fun b => ⟨[.fixed .rightParen], false,
      fun _ _ => follows_fixed (by decide) (by decide), by decide, ?_⟩
    intro rest _ i r' hr'
    exact yields_close hr'.shows i.2
  · refine viable_choice hr₁ (fun hnil => ?_) (fun paren r₂ _ hr₂ => ?_)
      fun _ _ _ _ => viable_pure _
    · refine completes_of_nil [] r₁.afterBreak hnil ⟨by simp, ?_⟩
      intro rest hrest n r' hr'
      exact yields_unless_peekIs hr'.shows (hrest.not_mem _ (by decide)) (ensures_pure hr')
    · exact viable_mono (viable_map (ih.arguments hr₂)) fun _ _ _ => trivial
  · exact viable_select ih hr₁ tok

end Expressions

/-- With any fuel, expressions that break off can be completed. -/
theorem expressionsViable (m : Nat) : ExpressionsViable m := by
  induction m with
  | zero => constructor <;> intros <;> exact viable_starved rfl
  | succ m ih =>
    exact {
      expression := fun lv hlv _ hr => viable_succ rfl (viable_expression ih hr lv hlv)
      operations := fun level tighter left hlv _ hr =>
        viable_succ rfl (viable_operations ih hr level tighter left hlv)
      unary := fun hr => viable_succ rfl (viable_unary ih hr)
      atom := fun hr => viable_succ rfl (viable_atom ih hr)
      arguments := fun hr => viable_succ rfl (viable_arguments ih hr)
      moreArguments := fun hr => viable_succ rfl (viable_moreArguments ih hr)
      arms := fun column _ hr hline => viable_succ rfl (viable_arms ih hr column hline) }

end Grammar

end Offside
