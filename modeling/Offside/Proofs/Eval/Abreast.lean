import Offside.Proofs.Eval.Cutoff
import Offside.Proofs.Eval.Likeness

/-!
# Runs abreast of each other

Two machines are level if they have scopes that go with each other, the same calls in progress and
the same surroundings; only the journal is left out. Two computations are abreast of each other if
from level machines they come to results that go with each other, on machines that are level again
(`Likeness.Abreast`). Every action is abreast of itself, and this carries over to sequences and to
calls. What is to be shown of a relation between trees are the forms of nodes alone.

A `Pace` leaves two things open. It says how the identities that are given out next have to stand to
the pairing: with a pairing that grows as they are given out, or with every identity paired with
itself from the start. And it says which of the computations leads, if one does: where that one runs
out of fuel, nothing is said of the other one. So if the leading computation comes to an end, the
other one does, and it may need more fuel for it.
-/

set_option autoImplicit false

namespace Offside

/-- Which of two computations leads. -/
inductive Lead where
  | first
  | second

/-- How two computations are compared. -/
structure Pace where
  /-- The computation that leads, if one does. -/
  lead : Option Lead
  /-- The identities that are given out next on both sides fit the pairing. -/
  fits : Pairing → Nat → Nat → Prop
  /-- What is given out is paired, and what comes after it still fits. -/
  fresh : ∀ {ρ next next'}, fits ρ next next' →
    ∃ ρ', ρ.Within ρ' ∧ ρ'.pairs next next' ∧ fits ρ' (next + 1) (next' + 1)

namespace Likeness

/-- Machines with scopes that go with each other, the same calls in progress and the same
surroundings. -/
structure Level (L : Likeness) (P : Pace) (ρ : Pairing) (m m' : Machine) : Prop where
  scopes : L.Arenas ρ m.scopes m'.scopes
  depth : m'.depth = m.depth
  input : m'.input = m.input
  inputBroken : m'.inputBroken = m.inputBroken
  output : m'.output = m.output
  writesLeft : m'.writesLeft = m.writesLeft
  checksLeft : m'.checksLeft = m.checksLeft
  fits : P.fits ρ m.nextId m'.nextId

/-- Results that go with each other, on machines that are level, unless the leading computation ran
out of fuel; the pairing may have grown. -/
inductive Meets (L : Likeness) (P : Pace) {α β : Type} (A : Pairing → α → β → Prop) (ρ : Pairing) :
    EStateM.Result Halt Machine α → EStateM.Result Halt Machine β → Prop where
  | ok {ρ' : Pairing} {a : α} {b : β} {m m' : Machine} (hρ : ρ.Within ρ') (hab : A ρ' a b)
      (hm : L.Level P ρ' m m') : Meets L P A ρ (.ok a m) (.ok b m')
  | error {ρ' : Pairing} {h h' : Halt} {m m' : Machine} (hρ : ρ.Within ρ') (hh : L.halts h h')
      (hm : L.Level P ρ' m m') : Meets L P A ρ (.error h m) (.error h' m')
  | first {m : Machine} {r' : EStateM.Result Halt Machine β} (hlead : P.lead = some .first) :
      Meets L P A ρ (.error .outOfFuel m) r'
  | second {r : EStateM.Result Halt Machine α} {m' : Machine} (hlead : P.lead = some .second) :
      Meets L P A ρ r (.error .outOfFuel m')

/-- From level machines, at any later time, both computations come to results that go with each
other. -/
def Abreast (L : Likeness) (P : Pace) (ρ : Pairing) {α β : Type} (A : Pairing → α → β → Prop)
    (x : Run α) (y : Run β) : Prop :=
  ∀ ρ₁ m m', ρ.Within ρ₁ → L.Level P ρ₁ m m' → L.Meets P A ρ₁ (x m) (y m')

/-- There is nothing to compare. -/
abbrev Any {α β : Type} (_ : Pairing) (_ : α) (_ : β) : Prop := True

variable {L : Likeness} {P : Pace} {ρ ρ' : Pairing} {α β γ δ : Type}
  {A : Pairing → α → β → Prop} {B : Pairing → γ → δ → Prop}

namespace Level

variable {m m' : Machine}

/-- Level machines have the same number of frames. -/
theorem count (h : L.Level P ρ m m') : m'.scopes.count = m.scopes.count := h.scopes.size

/-- Level machines are level inside a call from the same slot. -/
theorem entered (h : L.Level P ρ m m') (slot : Nat) :
    L.Level P ρ (Run.entered m slot) (Run.entered m' slot) :=
  { h with
    scopes := h.scopes.child slot
    depth := congrArg (· + 1) h.depth }

/-- Level machines are level when the last frame is released on both. -/
theorem exited (h : L.Level P ρ m m') : L.Level P ρ (Run.exited m) (Run.exited m') :=
  { h with
    scopes := h.scopes.pop
    depth := congrArg (· - 1) h.depth }

end Level

namespace Meets

/-- What holds of a pairing that has grown holds of the pairing it has grown from. -/
theorem of_within (hρ : ρ.Within ρ') {r : EStateM.Result Halt Machine α}
    {r' : EStateM.Result Halt Machine β} (h : L.Meets P A ρ' r r') : L.Meets P A ρ r r' := by
  cases h with
  | ok hρ' hab hm => exact .ok (hρ.trans hρ') hab hm
  | error hρ' hh hm => exact .error (hρ.trans hρ') hh hm
  | first hlead => exact .first hlead
  | second hlead => exact .second hlead

/-- Sequences meet if their first parts do, and what follows them does. -/
theorem bind {x : Run α} {y : Run β} {f : α → Run γ} {g : β → Run δ} {m m' : Machine}
    (hxy : L.Meets P A ρ (x m) (y m'))
    (hf : ∀ {ρ₁ a b n n'}, ρ.Within ρ₁ → x m = .ok a n → A ρ₁ a b → L.Level P ρ₁ n n' →
      L.Meets P B ρ₁ (f a n) (g b n')) :
    L.Meets P B ρ ((x >>= f) m) ((y >>= g) m') := by
  show L.Meets P B ρ (EStateM.bind x f m) (EStateM.bind y g m')
  unfold EStateM.bind
  generalize x m = r at hxy hf
  generalize y m' = r' at hxy
  cases hxy with
  | ok hρ hab hn => exact (hf hρ rfl hab hn).of_within hρ
  | error hρ hh hn => exact .error hρ hh hn
  | first hlead => exact .first hlead
  | second hlead => exact .second hlead

/-- Bodies that are run in new frames meet if they restore the frames. Where the leading one runs
out of fuel its frame can be left, so that its call stops for want of fuel too. -/
theorem inNewFrame {slot : Nat} {body : Nat → Run α} {body' : Nat → Run β} {m m' : Machine}
    (hm : L.Level P ρ m m') (hpos : 0 < m.scopes.count)
    (hkeeps : ∀ frame, Run.Keeps (Restores frame) (body frame))
    (hkeeps' : ∀ frame, Run.Keeps (Restores frame) (body' frame))
    (hbody : ∀ frame, L.Abreast P ρ A (body frame) (body' frame)) :
    L.Meets P A ρ (Run.inNewFrame slot body m) (Run.inNewFrame slot body' m') := by
  have hpos' : 0 < m'.scopes.count := by rwa [hm.count]
  have hinside := hbody m.scopes.count ρ _ _ (.refl ρ) (hm.entered slot)
  rw [Run.inNewFrame_eq hpos (hkeeps _), Run.inNewFrame_eq hpos' (hkeeps' _), hm.count]
  generalize body m.scopes.count (Run.entered m slot) = r at hinside
  generalize body' m.scopes.count (Run.entered m' slot) = r' at hinside
  cases hinside with
  | ok hρ hab hn => exact .ok hρ hab hn.exited
  | error hρ hh hn => exact .error hρ hh hn.exited
  | first hlead => exact .first hlead
  | second hlead => exact .second hlead

end Meets

namespace Abreast

/-- Values that go with each other at any later time are given abreast. -/
theorem pure {a : α} {b : β} (h : ∀ {ρ₁}, ρ.Within ρ₁ → A ρ₁ a b) :
    L.Abreast P ρ A (Pure.pure a) (Pure.pure b) :=
  fun ρ₁ _ _ hρ hm => .ok (.refl ρ₁) (h hρ) hm

/-- Stops that go with each other are made abreast. -/
theorem throw {h h' : Halt} (hh : L.halts h h') :
    L.Abreast P ρ A (MonadExcept.throw h) (MonadExcept.throw h') :=
  fun ρ₁ _ _ _ hm => .error (.refl ρ₁) hh hm

/-- Sequences are abreast if their first parts are, and what follows them is. -/
theorem bind {x : Run α} {y : Run β} {f : α → Run γ} {g : β → Run δ} (hx : L.Abreast P ρ A x y)
    (hf : ∀ {ρ₁ a b}, ρ.Within ρ₁ → A ρ₁ a b → L.Abreast P ρ₁ B (f a) (g b)) :
    L.Abreast P ρ B (x >>= f) (y >>= g) := by
  intro ρ₁ m m' hρ hm
  refine (hx ρ₁ m m' hρ hm).bind fun {ρ₂ _ _ _ _} hρ₂ _ hab hn => ?_
  exact hf (hρ.trans hρ₂) hab ρ₂ _ _ (.refl ρ₂) hn

/-- What is abreast stays so when the pairing grows. -/
theorem mono {x : Run α} {y : Run β} (hρ : ρ.Within ρ') (h : L.Abreast P ρ A x y) :
    L.Abreast P ρ' A x y :=
  fun ρ₁ m m' hρ₁ => h ρ₁ m m' (hρ.trans hρ₁)

/-- Values that go with each other still do when the pairing has grown. -/
theorem pure_value {v v' : Value} (h : L.Values ρ v v') :
    L.Abreast P ρ L.Values (Pure.pure v) (Pure.pure v') :=
  pure fun hρ => h.mono hρ

/-- Nil goes with nil. -/
theorem pure_nil : L.Abreast P ρ L.Values (Pure.pure .nil) (Pure.pure .nil) := pure_value .nil

/-- The outcome of an operator is lifted abreast if the answers go with each other. -/
theorem lift {o o' : Except Halt Value} (h : L.Answers ρ o o') :
    L.Abreast P ρ L.Values (Eval.lift o) (Eval.lift o') := by
  cases h with
  | ok hv => exact pure_value hv
  | error hh => exact throw hh

/-- A value and the values behind it are given abreast if both parts are. -/
theorem cons {x y : Run Value} {xs ys : Run (List Value)} (hx : L.Abreast P ρ L.Values x y)
    (hxs : ∀ {ρ}, L.Abreast P ρ (fun ρ => List.Forall₂ (L.Values ρ)) xs ys) :
    L.Abreast P ρ (fun ρ => List.Forall₂ (L.Values ρ))
      (x >>= fun v => xs >>= fun vs => Pure.pure (v :: vs))
      (y >>= fun v => ys >>= fun vs => Pure.pure (v :: vs)) := by
  refine bind hx fun _ hv => bind hxs fun hρ hvs => pure fun hρ' => ?_
  exact .cons (hv.mono (hρ.trans hρ')) (hvs.imp fun _ _ h => h.mono hρ')

/-! ## The single actions -/

/-- Both sides have as many questions left, so both are cancelled or neither is. -/
theorem check : L.Abreast P ρ Any Run.check Run.check := by
  intro ρ₁ m m' _ hm
  unfold Run.check
  rw [hm.checksLeft]
  rcases m.checksLeft with _ | _ | n
  · exact .ok (.refl ρ₁) trivial hm
  · exact .error (.refl ρ₁) (L.refl _) hm
  · exact .ok (.refl ρ₁) trivial { hm with checksLeft := rfl }

/-- The journals are not compared, so that the lines may differ. -/
theorem log (entry entry' : JournalEntry) :
    L.Abreast P ρ Any (Run.log entry) (Run.log entry') :=
  fun ρ₁ _ _ _ hm => .ok (.refl ρ₁) trivial { hm with }

/-- The identities that both sides give out are paired from then on. -/
theorem freshId : L.Abreast P ρ Pairing.pairs Run.freshId Run.freshId := by
  intro ρ₁ m m' _ hm
  obtain ⟨ρ₂, hρ₂, hpair, hfits⟩ := P.fresh hm.fits
  exact .ok hρ₂ hpair { hm with
    scopes := hm.scopes.mono hρ₂
    fits := hfits }

/-- The same piece is written on both sides, or refused on both. -/
theorem write (piece : Text) : L.Abreast P ρ Any (Run.write piece) (Run.write piece) := by
  intro ρ₁ m m' _ hm
  have hout : piece :: m'.output = piece :: m.output := by rw [hm.output]
  unfold Run.write
  rw [hm.writesLeft]
  rcases hw : m.writesLeft with _ | _ | n
  · exact .ok (.refl ρ₁) trivial { hm with
      output := hout
      writesLeft := rfl }
  · exact .error (.refl ρ₁) (L.refl _) hm
  · exact .ok (.refl ρ₁) trivial { hm with
      output := hout
      writesLeft := rfl }

/-- The same line is read on both sides, or both fail to read one. -/
theorem readLine : L.Abreast P ρ L.Values Builtin.readLine Builtin.readLine := by
  intro ρ₁ m m' _ hm
  have hleft : L.Level P ρ₁ { m with input := m.input.splitLine.2 }
      { m' with input := m.input.splitLine.2, inputBroken := m.inputBroken } := { hm with
    input := rfl
    inputBroken := rfl }
  unfold Builtin.readLine
  dsimp only
  rw [hm.input, hm.inputBroken]
  split
  · exact .ok (.refl ρ₁) (.ofLine _) hleft
  · split
    · exact .error (.refl ρ₁) (L.refl _) hleft
    · split
      · exact .ok (.refl ρ₁) .nil hleft
      · exact .ok (.refl ρ₁) (.ofLine _) hleft

/-- A name is bound to values that go with each other, or to none on both sides. -/
theorem lookup (slot : Nat) (name : String) :
    L.Abreast P ρ L.Values (Run.lookup slot name) (Run.lookup slot name) := by
  intro ρ₁ m m' _ hm
  have hget := hm.scopes.get slot name
  unfold Run.lookup
  generalize m.scopes.get slot name = o at hget
  generalize m'.scopes.get slot name = o' at hget
  cases hget with
  | ok hv => exact .ok (.refl ρ₁) hv hm
  | error h => exact .error (.refl ρ₁) (L.refl h) hm

/-- A name is given values that go with each other in the same frame, or in none. -/
theorem assign (slot : Nat) (name : String) {v v' : Value} (hv : L.Values ρ v v') :
    L.Abreast P ρ Any (Run.assign slot name v) (Run.assign slot name v') := by
  intro ρ₁ m m' hρ hm
  have hset := hm.scopes.set slot name (hv.mono hρ)
  unfold Run.assign
  generalize m.scopes.set slot name v = o at hset
  generalize m'.scopes.set slot name v' = o' at hset
  cases hset with
  | ok hs => exact .ok (.refl ρ₁) trivial { hm with scopes := hs }
  | error h => exact .error (.refl ρ₁) (L.refl h) hm

/-- A name is declared on both sides, or refused on both. -/
theorem declare (slot : Nat) (name : String) {v v' : Value} (hv : L.Values ρ v v') :
    L.Abreast P ρ Any (Run.declare slot name v) (Run.declare slot name v') := by
  intro ρ₁ m m' hρ hm
  have hadd := hm.scopes.declare slot name (hv.mono hρ)
  unfold Run.declare
  generalize m.scopes.declare slot name v = o at hadd
  generalize m'.scopes.declare slot name v' = o' at hadd
  cases hadd with
  | ok hs => exact .ok (.refl ρ₁) trivial { hm with scopes := hs }
  | error h => exact .error (.refl ρ₁) (L.refl h) hm

/-! ## Arguments and builtins -/

/-- Parameters are declared with arguments that go with each other one by one. -/
theorem declareAll (slot : Nat) {args args' : List Value}
    (hargs : List.Forall₂ (L.Values ρ) args args') (index : Nat) (names : List String) :
    L.Abreast P ρ Any (Run.declareAll slot args index names)
      (Run.declareAll slot args' index names) := by
  induction names generalizing index with
  | nil => exact pure fun _ => trivial
  | cons name names ih =>
    unfold Run.declareAll
    rcases rel_cases (rel_getElem? hargs index) with ⟨hget, hget'⟩ | ⟨v, v', hget, hget', hv⟩
    · rw [hget, hget', ← hargs.length_eq]
      exact throw (L.refl _)
    · rw [hget, hget']
      exact bind (declare slot name hv) fun hρ _ => (ih (index + 1)).mono hρ

/-- Builtins see of their arguments only the texts, which are the same on both sides. -/
theorem builtin (name : String) {args args' : List Value}
    (hargs : List.Forall₂ (L.Values ρ) args args') :
    L.Abreast P ρ L.Values (Builtin.run name args) (Builtin.run name args') := by
  unfold Builtin.run
  split
  · unfold Builtin.print
    rw [Values.head?_text hargs]
    exact bind (write _) fun _ _ => pure_nil
  · split
    · unfold Builtin.input
      cases hargs with
      | nil => exact readLine
      | cons hv _ =>
        dsimp only
        rw [hv.text]
        exact bind (write _) fun _ _ => readLine
    · exact pure_nil

/-! ## Calls -/

section Calls

variable {maxDepth : Int} {ev ev' : Evaluator} {slot : Nat} {tok tok' : Token}
  (hblames : L.Blames tok tok')
  (hkeeps : ∀ slot node, Run.Keeps (Restores slot) (ev slot node))
  (hkeeps' : ∀ slot node, Run.Keeps (Restores slot) (ev' slot node))
  (hbody : ∀ {ρ frame body body'}, L.bodies body body' →
    L.Abreast P ρ (fun ρ => Option.Rel (L.Values ρ)) (Eval.runBlock (ev frame) body)
      (Eval.runBlock (ev' frame) body'))
include hblames hkeeps hkeeps' hbody

omit hblames hkeeps hkeeps' in
/-- In the frame of a call, the same is done with functions that go with each other. -/
theorem callBody {f f' : Function} (hf : L.Values ρ (.function f) (.function f')) (name : String)
    {args args' : List Value} (hargs : List.Forall₂ (L.Values ρ) args args') (frame : Nat) :
    L.Abreast P ρ L.Values (Eval.callBody ev name f args frame)
      (Eval.callBody ev' name f' args' frame) := by
  cases hf with
  | function fname params hid hbodies =>
    refine bind (declareAll frame hargs 0 params) fun _ _ => ?_
    refine bind (log _ _) fun _ _ => ?_
    exact bind (hbody hbodies) fun _ hv => pure_value (.option_getD hv)

/-- A function is entered where a frame is live, so that the frame of the call can be left. -/
theorem enter {f f' : Function} (hf : L.Values ρ (.function f) (.function f')) (name : String)
    {args args' : List Value} (hargs : List.Forall₂ (L.Values ρ) args args') {m m' : Machine}
    (hm : L.Level P ρ m m') (hpos : 0 < m.scopes.count) :
    L.Meets P L.Values ρ (Eval.enter maxDepth ev slot tok name f args m)
      (Eval.enter maxDepth ev' slot tok' name f' args' m') := by
  by_cases hdepth : maxDepth ≤ m.depth
  · rw [Eval.enter_of_le hdepth, Eval.enter_of_le (by rwa [hm.depth])]
    exact .error (.refl ρ) (hblames.tooDeep name maxDepth) hm
  · rw [Eval.enter_of_not_le hdepth, Eval.enter_of_not_le (by rwa [hm.depth])]
    exact .inNewFrame hm hpos (Restores.kept.keeps_callBody hkeeps name f args)
      (Restores.kept.keeps_callBody hkeeps' name f' args') (callBody hbody hf name hargs)

/-- Calls of the same name with arguments that are abreast are abreast. -/
theorem call (name : String) {args args' : List Node} (hlength : args'.length = args.length)
    (hargs : ∀ {ρ}, L.Abreast P ρ (fun ρ => List.Forall₂ (L.Values ρ))
      (Eval.runArgs (ev slot) args) (Eval.runArgs (ev' slot) args')) :
    L.Abreast P ρ L.Values (Eval.call maxDepth ev slot tok name args)
      (Eval.call maxDepth ev' slot tok' name args') := by
  refine bind check fun _ _ ρ₁ m m' hρ hm => ?_
  refine (lookup slot name ρ₁ m m' (.refl ρ₁) hm).bind fun {ρ₂ _ _ n _} _ hfound hcallee hm₂ => ?_
  -- where the name is found there is a frame, and the arguments leave it there
  obtain ⟨rfl, hpos⟩ := Run.lookup_ok hfound
  cases hcallee with
  | nil | int | float | string | bool =>
    exact .error (.refl ρ₂) (hblames.notCallable name _) hm₂
  | builtin builtinName _ =>
    exact bind hargs (fun _ hvs => builtin builtinName hvs) ρ₂ _ _ (.refl ρ₂) hm₂
  | function fname params hid hbodies =>
    dsimp only
    rw [hlength]
    split
    · exact .error (.refl ρ₂) (hblames.missingArguments name params.length args.length) hm₂
    · refine (hargs ρ₂ _ _ (.refl ρ₂) hm₂).bind fun {_ _ _ n₃ _} hρ₃ hvs hvalues hm₃ => ?_
      have hrestored := Restores.kept.keeps_runArgs (hkeeps slot) args n
      rw [Run.final_of_ok hvs] at hrestored
      have hpos₃ : 0 < n₃.scopes.count := by rwa [hrestored.count]
      have hf := Values.function fname params (hρ₃ _ _ hid) hbodies
      exact enter hblames hkeeps hkeeps' hbody hf name hvalues hm₃ hpos₃

end Calls

/-! ## Runs of trees -/

/-- Programs that are abreast, run in sessions on level machines, come to answers that go with each
other and leave level machines, unless the run in the lead ran out of fuel. -/
theorem runTree {s s' : Session} {fuel fuel' : Nat} {checks : Option Nat} {tree tree' : Node}
    (hoptions : s'.options = s.options)
    (hstart : L.Level P ρ { s.machine with checksLeft := checks }
      { s'.machine with checksLeft := checks })
    (h : L.Abreast P ρ L.Values
      (Session.runProgram s.options fuel (Session.statementsOf tree))
      (Session.runProgram s.options fuel' (Session.statementsOf tree'))) :
    P.lead = some .first ∧ (s.runTree fuel checks tree).1 = .error .outOfFuel ∨
      P.lead = some .second ∧ (s'.runTree fuel' checks tree').1 = .error .outOfFuel ∨
      ∃ ρ', ρ.Within ρ' ∧
        L.Answers ρ' (s.runTree fuel checks tree).1 (s'.runTree fuel' checks tree').1 ∧
        L.Level P ρ' (s.runTree fuel checks tree).2.machine
          (s'.runTree fuel' checks tree').2.machine := by
  have hmeets := h ρ _ _ (.refl ρ) hstart
  simp only [Session.runTree, hoptions]
  generalize Session.runProgram s.options fuel _ _ = r at hmeets
  generalize Session.runProgram s.options fuel' _ _ = r' at hmeets
  cases hmeets with
  | ok hρ hv hm => exact Or.inr (Or.inr ⟨_, hρ, .ok hv, hm⟩)
  | error hρ hh hm => exact Or.inr (Or.inr ⟨_, hρ, .error hh, hm⟩)
  | first hlead => exact Or.inl ⟨hlead, rfl⟩
  | second hlead => exact Or.inr (Or.inl ⟨hlead, rfl⟩)

end Abreast

end Likeness

end Offside
