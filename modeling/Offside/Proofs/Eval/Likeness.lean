import Offside.Eval.Line
import Offside.Eval.Operator
import Offside.Proofs.Scope.Frames
import Mathlib.Data.List.Forall2

/-!
# Scopes that differ in their functions

Values go with each other if they are the same and no functions. Functions go with each other if
their identities are paired, their names and parameters are the same, and their bodies are related,
in a way that a `Likeness` leaves open; it also leaves open which stops go with each other. Scopes
go with each other if they have the same frames with the same names, bound to values that do. The
pairing of identities is one to one and can only grow.

Each operation on scopes that go with each other has the same outcome on both sides (`Arenas.get`,
`Arenas.set`, `Arenas.declare`), and so has each operator on values that do (`Answers.unary`,
`Answers.binary`).
-/

set_option autoImplicit false

namespace Offside

/-- Which identities go with each other. -/
structure Pairing where
  pairs : Nat → Nat → Prop
  eq_right : ∀ {a b b'}, pairs a b → pairs a b' → b' = b
  eq_left : ∀ {a a' b}, pairs a b → pairs a' b → a' = a

namespace Pairing

/-- The second pairing has all pairs of the first one. -/
def Within (ρ ρ' : Pairing) : Prop := ∀ a b, ρ.pairs a b → ρ'.pairs a b

/-- A pairing has grown from itself. -/
theorem Within.refl (ρ : Pairing) : ρ.Within ρ := fun _ _ h => h

/-- Growth of pairings is transitive. -/
theorem Within.trans {ρ ρ' ρ'' : Pairing} (h₁ : ρ.Within ρ') (h₂ : ρ'.Within ρ'') :
    ρ.Within ρ'' :=
  fun a b h => h₂ a b (h₁ a b h)

/-- Each of two identities occurs in the pairing if the other one does, so comparing them with
others gives the same answer on both sides. -/
theorem beq_eq (ρ : Pairing) {a a' b b' : Nat} (ha : ρ.pairs a a') (hb : ρ.pairs b b') :
    (a' == b') = (a == b) := by
  rw [Bool.eq_iff_iff, beq_iff_eq, beq_iff_eq]
  constructor
  · rintro rfl
    exact ρ.eq_left hb ha
  · rintro rfl
    exact ρ.eq_right hb ha

/-- The identities in the pairing have been given out on both sides. -/
def Given (ρ : Pairing) (next next' : Nat) : Prop :=
  ∀ a b, ρ.pairs a b → a < next ∧ b < next'

/-- The pairing with one more pair, of identities that have not been given out. -/
def add (ρ : Pairing) {next next' : Nat} (h : ρ.Given next next') : Pairing where
  pairs a b := ρ.pairs a b ∨ a = next ∧ b = next'
  eq_right := by
    rintro a b b' (hb | ⟨rfl, rfl⟩) (hb' | ⟨hnext, rfl⟩)
    · exact ρ.eq_right hb hb'
    · have := (h _ _ hb).1
      omega
    · have := (h _ _ hb').1
      omega
    · rfl
  eq_left := by
    rintro a a' b (ha | ⟨rfl, rfl⟩) (ha' | ⟨rfl, hnext⟩)
    · exact ρ.eq_left ha ha'
    · have := (h _ _ ha).2
      omega
    · have := (h _ _ ha').2
      omega
    · rfl

/-- A pairing is contained in what it becomes when the next identities are paired. -/
theorem within_add (ρ : Pairing) {next next' : Nat} (h : ρ.Given next next') :
    ρ.Within (ρ.add h) :=
  fun _ _ hab => Or.inl hab

/-- When the next identities have been paired, those after them are next. -/
theorem given_add (ρ : Pairing) {next next' : Nat} (h : ρ.Given next next') :
    (ρ.add h).Given (next + 1) (next' + 1) := by
  rintro a b (hab | ⟨rfl, rfl⟩)
  · have := h a b hab
    omega
  · omega

end Pairing

/-- What may differ between two runs. -/
structure Likeness where
  /-- Bodies of functions that go with each other. -/
  bodies : List Node → List Node → Prop
  /-- Stops that go with each other. -/
  halts : Halt → Halt → Prop
  refl : ∀ h, halts h h

namespace Likeness

variable (L : Likeness)

/-- Calls and operators at the two tokens stop in ways that go with each other. -/
structure Blames (tok tok' : Token) : Prop where
  tooDeep : ∀ name limit, L.halts (.fault (.tooDeep name limit tok.pos))
    (.fault (.tooDeep name limit tok'.pos))
  missingArguments : ∀ name wanted given,
    L.halts (.fault (.missingArguments name wanted given tok.pos))
      (.fault (.missingArguments name wanted given tok'.pos))
  notCallable : ∀ name kind, L.halts (.fault (.notCallable name kind tok.pos))
    (.fault (.notCallable name kind tok'.pos))
  operandKinds : ∀ operator left right,
    L.halts (.fault (.operandKinds operator left right tok.pos))
      (.fault (.operandKinds operator left right tok'.pos))
  divisionByZero : L.halts (.fault (.divisionByZero tok.pos)) (.fault (.divisionByZero tok'.pos))

/-- Values that go with each other. -/
inductive Values (ρ : Pairing) : Value → Value → Prop where
  | nil : Values ρ .nil .nil
  | int (n : Int64) : Values ρ (.int n) (.int n)
  | float (x : Float) : Values ρ (.float x) (.float x)
  | string (t : Text) : Values ρ (.string t) (.string t)
  | bool (b : Bool) : Values ρ (.bool b) (.bool b)
  | function {id id' : Nat} {body body' : List Node} (name : String) (params : List String)
      (hid : ρ.pairs id id') (hbody : L.bodies body body') :
      Values ρ (.function ⟨id, name, params, body⟩) (.function ⟨id', name, params, body'⟩)
  | builtin {id id' : Nat} (name : String) (hid : ρ.pairs id id') :
      Values ρ (.builtin id name) (.builtin id' name)

/-- Answers that go with each other. -/
inductive Answers (ρ : Pairing) : Except Halt Value → Except Halt Value → Prop where
  | ok {v v' : Value} (hv : L.Values ρ v v') : Answers ρ (.ok v) (.ok v')
  | error {h h' : Halt} (hh : L.halts h h') : Answers ρ (.error h) (.error h')

/-- Frames with the same parent and the same names, bound to values that go with each other. -/
structure Frames (ρ : Pairing) (f f' : Frame) : Prop where
  parent : f'.parent = f.parent
  bound : ∀ name, Option.Rel (L.Values ρ) (f.get? name) (f'.get? name)

/-- As many frames on both sides, each of which goes with the one in the same slot. -/
structure Arenas (ρ : Pairing) (s s' : Scopes) : Prop where
  size : s'.frames.size = s.frames.size
  frames : ∀ i : Nat, Option.Rel (L.Frames ρ) s.frames[i]? s'.frames[i]?

variable {L} {ρ ρ' : Pairing}

section Rel

variable {α β γ δ : Type} {R : α → β → Prop} {S : γ → δ → Prop} {o : Option α} {o' : Option β}

/-- Related options are both empty, or both hold related values. -/
theorem rel_cases (h : Option.Rel R o o') :
    o = none ∧ o' = none ∨ ∃ a b, o = some a ∧ o' = some b ∧ R a b := by
  cases h with
  | none => exact Or.inl ⟨rfl, rfl⟩
  | some h => exact Or.inr ⟨_, _, rfl, rfl, h⟩

/-- Functions that carry related values to related values carry related options to such. -/
theorem rel_map {f : α → γ} {g : β → δ} (h : Option.Rel R o o')
    (hfg : ∀ {a b}, R a b → S (f a) (g b)) : Option.Rel S (o.map f) (o'.map g) := by
  cases h with
  | none => exact .none
  | some h => exact .some (hfg h)

/-- A weaker relation relates more options. -/
theorem rel_mono {S : α → β → Prop} (h : Option.Rel R o o') (hRS : ∀ {a b}, R a b → S a b) :
    Option.Rel S o o' := by
  cases h with
  | none => exact .none
  | some h => exact .some (hRS h)

/-- Lists that are related one by one have related elements at every index. -/
theorem rel_getElem? {as : List α} {bs : List β} (h : List.Forall₂ R as bs) (i : Nat) :
    Option.Rel R as[i]? bs[i]? := by
  induction h generalizing i with
  | nil => exact .none
  | cons hab _ ih =>
    cases i with
    | zero => exact .some hab
    | succ i => exact ih i

end Rel

/-! ## Values -/

namespace Values

variable {v v' w w' : Value}

/-- Values that go with each other still do when the pairing has grown. -/
theorem mono (hρ : ρ.Within ρ') (h : L.Values ρ v v') : L.Values ρ' v v' := by
  cases h with
  | nil => exact .nil
  | int n => exact .int n
  | float x => exact .float x
  | string t => exact .string t
  | bool b => exact .bool b
  | function name params hid hbody => exact .function name params (hρ _ _ hid) hbody
  | builtin name hid => exact .builtin name (hρ _ _ hid)

/-- Values that go with each other are of the same kind. -/
theorem kind (h : L.Values ρ v v') : v'.kind = v.kind := by cases h <;> rfl

/-- Values that go with each other are printed alike. -/
theorem text (h : L.Values ρ v v') : v'.text = v.text := by cases h <;> rfl

/-- Values that go with each other are true or false together. -/
theorem truthy (h : L.Values ρ v v') : v'.truthy = v.truthy := by cases h <;> rfl

/-- Equality of values says the same on both sides, since the pairing is one to one. -/
theorem equal (hv : L.Values ρ v v') (hw : L.Values ρ w w') : v'.equal w' = v.equal w := by
  cases hv with
  | function name params hid hbody =>
    cases hw with
    | function name' params' hid' hbody' => exact ρ.beq_eq hid hid'
    | _ => rfl
  | builtin name hid =>
    cases hw with
    | builtin name' hid' => exact ρ.beq_eq hid hid'
    | _ => rfl
  | _ => cases hw <;> rfl

/-- What is read from a line is no function. -/
theorem ofLine (line : Text) : L.Values ρ (.ofLine line) (.ofLine line) := by
  unfold Value.ofLine
  dsimp only
  split
  · exact .int _
  · split
    · split
      · exact .float _
      · exact .string _
    · exact .string _

/-- The first of the values is printed alike on both sides, if there is one. -/
theorem head?_text {vs vs' : List Value} (h : List.Forall₂ (L.Values ρ) vs vs') :
    vs'.head?.map Value.text = vs.head?.map Value.text := by
  cases h with
  | nil => rfl
  | cons hv _ => exact congrArg some hv.text

/-- Nil in place of a missing value leaves values that go with each other. -/
theorem option_getD {o o' : Option Value} (h : Option.Rel (L.Values ρ) o o') :
    L.Values ρ (o.getD .nil) (o'.getD .nil) := by
  cases h with
  | some h => exact h
  | none => exact .nil

end Values

/-! ## Operators

An operator looks at no function, but for its kind, and so gives the same on both sides. It may be
blamed on different tokens where it gives nothing.
-/

namespace Answers

variable {tok tok' : Token} (hblames : L.Blames tok tok') (op : Kind) {v v' w w' : Value}
include hblames

/-- An operator before values that go with each other. -/
theorem unary (hv : L.Values ρ v v') :
    L.Answers ρ (Operator.unary op tok.pos v) (Operator.unary op tok'.pos v') := by
  cases op with
  | notWord =>
    cases hv with
    | bool b => exact .ok (.bool _)
    | _ => exact .error (hblames.operandKinds _ _ _)
  | plus | minus =>
    cases hv with
    | int n => exact .ok (.int _)
    | float x => exact .ok (.float _)
    | _ => exact .error (hblames.operandKinds _ _ _)
  | _ => cases hv <;> exact .error (L.refl _)

/-- An operator between the same two whole numbers. -/
theorem onInts (l r : Int64) :
    L.Answers ρ (Operator.onInts op tok.pos l r) (Operator.onInts op tok'.pos l r) := by
  unfold Operator.onInts
  cases op with
  | divide | modulo =>
    dsimp only
    split
    · exact .error hblames.divisionByZero
    · exact .ok (by constructor)
  | plus | minus | times => exact .ok (.int _)
  | less | greater | lessEqual | greaterEqual | equal | notEqual => exact .ok (.bool _)
  | _ => exact .error (L.refl _)

/-- An operator between the same two doubles. -/
theorem onFloats (l r : Float) :
    L.Answers ρ (Operator.onFloats op tok.pos l r) (Operator.onFloats op tok'.pos l r) := by
  unfold Operator.onFloats
  cases op with
  | divide | modulo =>
    dsimp only
    split
    · exact .error hblames.divisionByZero
    · exact .ok (.float _)
  | plus | minus | times => exact .ok (.float _)
  | less | greater | lessEqual | greaterEqual | equal | notEqual => exact .ok (.bool _)
  | _ => exact .error (L.refl _)

/-- An operator between numbers that go with each other. -/
theorem onNumbers (hv : L.Values ρ v v') (hw : L.Values ρ w w') :
    L.Answers ρ (Operator.onNumbers op tok.pos v w) (Operator.onNumbers op tok'.pos v' w') := by
  cases hv with
  | int l =>
    cases hw with
    | int r => exact onInts hblames op l r
    | float r => exact onFloats hblames op l.toFloat r
    | _ => exact .error (L.refl _)
  | float l =>
    cases hw with
    | int r => exact onFloats hblames op l r.toFloat
    | float r => exact onFloats hblames op l r
    | _ => exact .error (L.refl _)
  | _ => cases hw <;> exact .error (L.refl _)

/-- Operands of kinds that do not fit have the same kinds on both sides. -/
theorem misfit (hv : L.Values ρ v v') (hw : L.Values ρ w w') :
    L.Answers ρ (Operator.misfit op v.kind.name w.kind.name tok.pos)
      (Operator.misfit op v'.kind.name w'.kind.name tok'.pos) := by
  rw [hv.kind, hw.kind]
  exact .error (hblames.operandKinds _ _ _)

/-- An operator between values that go with each other. -/
theorem binary (hv : L.Values ρ v v') (hw : L.Values ρ w w') :
    L.Answers ρ (Operator.binary op tok.pos v w) (Operator.binary op tok'.pos v' w') := by
  have hnumeric : (v'.isNumeric && w'.isNumeric) = (v.isNumeric && w.isNumeric) := by
    cases hv <;> cases hw <;> rfl
  have hnumbers : L.Answers ρ
      (if v.isNumeric && w.isNumeric then Operator.onNumbers op tok.pos v w
        else Operator.misfit op v.kind.name w.kind.name tok.pos)
      (if v'.isNumeric && w'.isNumeric then Operator.onNumbers op tok'.pos v' w'
        else Operator.misfit op v'.kind.name w'.kind.name tok'.pos) := by
    rw [hnumeric]
    split
    · exact onNumbers hblames op hv hw
    · exact misfit hblames op hv hw
  cases op with
  | andWord | orWord =>
    cases hv with
    | bool l =>
      cases hw with
      | bool r => exact .ok (.bool _)
      | _ => exact .error (hblames.operandKinds _ _ _)
    | _ => cases hw <;> exact .error (hblames.operandKinds _ _ _)
  | _ => exact hnumbers

end Answers

/-! ## Frames -/

namespace Frames

variable {f f' : Frame} {v v' : Value}

/-- Frames that go with each other still do when the pairing has grown. -/
theorem mono (hρ : ρ.Within ρ') (h : L.Frames ρ f f') : L.Frames ρ' f f' :=
  ⟨h.parent, fun name => rel_mono (h.bound name) fun hv => hv.mono hρ⟩

/-- A name may be added to both frames with values that go with each other. -/
theorem insert (h : L.Frames ρ f f') (name : String) (hv : L.Values ρ v v') :
    L.Frames ρ (f.insert name v) (f'.insert name v') := by
  refine ⟨h.parent, fun n => ?_⟩
  rw [Frame.get?_insert, Frame.get?_insert]
  split
  · exact .some hv
  · exact h.bound n

/-- A name may be bound anew in both frames to values that go with each other. -/
theorem update (h : L.Frames ρ f f') (name : String) (hv : L.Values ρ v v') :
    L.Frames ρ (f.update name v) (f'.update name v') := by
  refine ⟨h.parent, fun n => ?_⟩
  rw [Frame.get?_update, Frame.get?_update]
  split
  · exact rel_map (h.bound n) fun _ => hv
  · exact h.bound n

end Frames

/-- Searches that end in the same place, with values that go with each other. -/
inductive Searches (L : Likeness) (ρ : Pairing) : Scopes.Search → Scopes.Search → Prop where
  | found (i : Nat) {v v' : Value} (hv : L.Values ρ v v') : Searches L ρ (.found i v) (.found i v')
  | nowhere : Searches L ρ .nowhere .nowhere
  | offEnd (i : Nat) : Searches L ρ (.offEnd i) (.offEnd i)
  | endless : Searches L ρ .endless .endless

/-- Replies that go with each other: results that do, or the same stop. -/
inductive Replies {α β : Type} (A : α → β → Prop) : Except Halt α → Except Halt β → Prop where
  | ok {a : α} {b : β} (hab : A a b) : Replies A (.ok a) (.ok b)
  | error (h : Halt) : Replies A (.error h) (.error h)

namespace Arenas

variable {s s' : Scopes} {v v' : Value}

/-- Scopes that go with each other still do when the pairing has grown. -/
theorem mono (hρ : ρ.Within ρ') (h : L.Arenas ρ s s') : L.Arenas ρ' s s' :=
  ⟨h.size, fun i => rel_mono (h.frames i) fun hf => hf.mono hρ⟩

/-- The same frame may be changed on both sides, if the change keeps frames that go together so. -/
theorem modify (h : L.Arenas ρ s s') (i : Nat) {g g' : Frame → Frame}
    (hg : ∀ {f f'}, L.Frames ρ f f' → L.Frames ρ (g f) (g' f')) :
    L.Arenas ρ ⟨s.frames.modify i g⟩ ⟨s'.frames.modify i g'⟩ := by
  refine ⟨by simp [h.size], fun j => ?_⟩
  rw [Array.getElem?_modify, Array.getElem?_modify]
  split
  · exact rel_map (h.frames j) hg
  · exact h.frames j

/-- A new frame under the same parent leaves scopes that go with each other. -/
theorem child (h : L.Arenas ρ s s') (slot : Nat) :
    L.Arenas ρ (s.child slot).1 (s'.child slot).1 := by
  refine ⟨by simp [Scopes.child, h.size], fun i => ?_⟩
  rw [Scopes.getElem?_child, Scopes.getElem?_child, Scopes.count, Scopes.count, h.size]
  split
  · exact .some ⟨rfl, fun _ => .none⟩
  · exact h.frames i

/-- Scopes still go with each other when the last frame is released on both sides. -/
theorem pop (h : L.Arenas ρ s s') : L.Arenas ρ ⟨s.frames.pop⟩ ⟨s'.frames.pop⟩ := by
  refine ⟨by simp [h.size], fun i => ?_⟩
  rw [Array.getElem?_pop, Array.getElem?_pop, h.size]
  split
  · exact h.frames i
  · exact .none

/-- The search for a name ends in the same frame on both sides, or fails on both. -/
theorem search (h : L.Arenas ρ s s') (name : String) (steps : Nat) (start : Option Nat) :
    L.Searches ρ (s.search name steps start) (s'.search name steps start) := by
  induction steps generalizing start with
  | zero => cases start <;> constructor
  | succ steps ih =>
    cases start with
    | none => constructor
    | some slot =>
      unfold Scopes.search
      rcases rel_cases (h.frames slot) with ⟨hf, hf'⟩ | ⟨f, f', hf, hf', hframe⟩
      · simp only [hf, hf']
        exact .offEnd slot
      · rcases rel_cases (hframe.bound name) with ⟨hv, hv'⟩ | ⟨v, v', hv, hv', hvalue⟩
        · simp only [hf, hf', hv, hv', hframe.parent]
          exact ih f.parent
        · simp only [hf, hf', hv, hv']
          exact .found slot hvalue

/-- The search from a slot ends in the same frame on both sides, or fails on both. -/
theorem find (h : L.Arenas ρ s s') (slot : Nat) (name : String) :
    L.Searches ρ (s.find slot name) (s'.find slot name) := by
  unfold Scopes.find
  rw [h.size]
  exact h.search name _ _

/-- A name is bound to values that go with each other, or to none for the same reason. -/
theorem get (h : L.Arenas ρ s s') (slot : Nat) (name : String) :
    Replies (L.Values ρ) (s.get slot name) (s'.get slot name) := by
  have hfind := h.find slot name
  unfold Scopes.get
  rw [h.size]
  generalize s.find slot name = o at hfind
  generalize s'.find slot name = o' at hfind
  cases hfind with
  | found i hv => exact .ok hv
  | nowhere | offEnd | endless => exact .error _

/-- An assignment succeeds on both sides or fails on both for the same reason. -/
theorem set (h : L.Arenas ρ s s') (slot : Nat) (name : String) (hv : L.Values ρ v v') :
    Replies (L.Arenas ρ) (s.set slot name v) (s'.set slot name v') := by
  have hfind := h.find slot name
  unfold Scopes.set
  rw [h.size]
  generalize s.find slot name = o at hfind
  generalize s'.find slot name = o' at hfind
  cases hfind with
  | found i _ => exact .ok (h.modify i fun hf => hf.update name hv)
  | nowhere | offEnd | endless => exact .error _

/-- A declaration succeeds on both sides or fails on both for the same reason. -/
theorem declare (h : L.Arenas ρ s s') (slot : Nat) (name : String) (hv : L.Values ρ v v') :
    Replies (L.Arenas ρ) (s.declare slot name v) (s'.declare slot name v') := by
  unfold Scopes.declare
  rcases rel_cases (h.frames slot) with ⟨hf, hf'⟩ | ⟨f, f', hf, hf', hframe⟩
  · simp only [hf, hf', h.size]
    exact .error _
  · rcases rel_cases (hframe.bound name) with ⟨hb, hb'⟩ | ⟨w, w', hb, hb', -⟩
    · simp only [hf, hf', hb, hb']
      exact .ok (h.modify slot fun hf => hf.insert name hv)
    · simp only [hf, hf', hb, hb']
      exact .error _

end Arenas

end Likeness

end Offside
