import Offside.Proofs.Eval.Congruence
import Offside.Proofs.Scope.Frames

/-!
# What every action keeps, evaluation keeps

A relation between the machine before and after is kept by a computation if the computation leaves
the machine in it, whether it gives a result or stops. `Eval.Kept` lists what a relation, which may
depend on the slot that is looked from, has to satisfy: it is reflexive and transitive, every single
action on the machine keeps it, and what the inside of a call keeps as seen from the new frame, the
whole call keeps as seen from the caller's. `Eval.Kept.eval` draws the conclusion for the evaluation
of every node, by one induction on fuel that serves all such relations, and `Eval.Kept.runProgram`
for whole programs.
-/

set_option autoImplicit false

namespace Offside

namespace Run

/-- The machine as a computation leaves it, whether it gives a result or stops. -/
def final {α : Type} (x : Run α) (m : Machine) : Machine :=
  match x m with
  | .ok _ m' => m'
  | .error _ m' => m'

/-- A computation leaves the machine in relation to the machine it found. -/
def Keeps {α : Type} (R : Machine → Machine → Prop) (x : Run α) : Prop :=
  ∀ m, R m (x.final m)

/-- The machine inside a call, before the parameters are declared. -/
def entered (m : Machine) (slot : Nat) : Machine :=
  { m with scopes := (m.scopes.child slot).1, depth := m.depth + 1 }

/-- The final machine of a computation that gives a value. -/
theorem final_of_ok {α : Type} {x : Run α} {a : α} {m m' : Machine} (h : x m = .ok a m') :
    x.final m = m' := by
  unfold final
  rw [h]

/-- The final machine of a computation that stops. -/
theorem final_of_error {α : Type} {x : Run α} {e : Halt} {m m' : Machine}
    (h : x m = .error e m') : x.final m = m' := by
  unfold final
  rw [h]

/-- A sequence leaves the machine as its second part does, if there is one. -/
theorem final_bind {α β : Type} (x : Run α) (f : α → Run β) (m : Machine) :
    (x >>= f).final m =
      match x m with
      | .ok a m' => (f a).final m'
      | .error _ m' => m' := by
  simp only [final, bind, EStateM.bind]
  cases x m <;> rfl

/-- A body run in a new frame leaves the machine as leaving its frame does. -/
theorem final_inNewFrame {α : Type} (slot : Nat) (body : Nat → Run α) (m : Machine) :
    (inNewFrame slot body).final m =
      (leave m.scopes.count).final ((body m.scopes.count).final (entered m slot)) := by
  simp only [final, inNewFrame, entered, Scopes.child, Scopes.count]
  cases body m.scopes.frames.size _ with
  | ok v m₁ => simp only [bind, EStateM.bind]; cases leave _ m₁ <;> rfl
  | error h m₁ => simp only [bind, EStateM.bind]; cases leave _ m₁ <;> rfl

section Keeps

variable {α β : Type} {R : Machine → Machine → Prop}

/-- A sequence keeps what both parts keep. -/
theorem Keeps.bind (trans : ∀ {a b c}, R a b → R b c → R a c) {x : Run α} {f : α → Run β}
    (hx : Keeps R x) (hf : ∀ a, Keeps R (f a)) : Keeps R (x >>= f) := by
  intro m
  rw [final_bind]
  have h := hx m
  cases hr : x m with
  | ok a m₁ =>
    rw [final_of_ok hr] at h
    exact trans h (hf a m₁)
  | error e m₁ =>
    rw [final_of_error hr] at h
    exact h

/-- Looking up a name changes nothing. -/
theorem final_lookup (slot : Nat) (name : String) (m : Machine) :
    (lookup slot name).final m = m := by
  simp only [final, lookup]
  cases m.scopes.get slot name <;> rfl

/-- Reading a line takes the first line off the input, also where the reading fails. -/
theorem final_readLine (m : Machine) :
    Builtin.readLine.final m = { m with input := m.input.splitLine.2 } := by
  unfold final Builtin.readLine
  dsimp only
  by_cases h₁ : m.input.splitLine.1.endsLine
  · simp [h₁]
  · by_cases h₂ : m.inputBroken
    · simp [h₁, h₂]
    · by_cases h₃ : m.input.splitLine.1.isEmpty <;> simp [h₁, h₂, h₃]

/-- A name that was found shows that there is a frame. -/
theorem lookup_ok {slot : Nat} {name : String} {m m' : Machine} {v : Value}
    (h : lookup slot name m = .ok v m') : m' = m ∧ 0 < m.scopes.count := by
  simp only [lookup] at h
  cases hg : m.scopes.get slot name with
  | ok w =>
    rw [hg] at h
    injection h with _ hm
    exact ⟨hm.symm, Scopes.count_pos_of_get hg⟩
  | error e => simp [hg] at h

end Keeps

end Run

namespace Eval

/-- A relation between machines, as seen from a slot, that every action keeps. -/
structure Kept (R : Nat → Machine → Machine → Prop) : Prop where
  refl : ∀ slot m, R slot m m
  trans : ∀ slot {a b c}, R slot a b → R slot b c → R slot a c
  /-- Related machines have the same number of frames. -/
  count : ∀ slot {a b}, R slot a b → b.scopes.count = a.scopes.count
  check : ∀ slot, Run.Keeps (R slot) Run.check
  log : ∀ slot entry, Run.Keeps (R slot) (Run.log entry)
  freshId : ∀ slot, Run.Keeps (R slot) Run.freshId
  write : ∀ slot piece, Run.Keeps (R slot) (Run.write piece)
  readLine : ∀ slot, Run.Keeps (R slot) Builtin.readLine
  declare : ∀ slot name v, Run.Keeps (R slot) (Run.declare slot name v)
  assign : ∀ slot name v, Run.Keeps (R slot) (Run.assign slot name v)
  /-- What holds inside a call carries over to the caller when the frame is left. -/
  leave : ∀ slot {m m'}, 0 < m.scopes.count → R m.scopes.count (Run.entered m slot) m' →
    R slot m ((Run.leave m.scopes.count).final m')

namespace Kept

variable {R : Nat → Machine → Machine → Prop} (K : Kept R) {slot : Nat}
include K

/-- A computation that changes nothing keeps the relation. -/
theorem keeps_of_final_eq {α : Type} {x : Run α} (h : ∀ m, x.final m = m) :
    Run.Keeps (R slot) x := by
  intro m
  rw [h]
  exact K.refl slot m

/-- A value given at once keeps the relation. -/
theorem keeps_pure {α : Type} (a : α) : Run.Keeps (R slot) (pure a : Run α) :=
  K.keeps_of_final_eq fun _ => rfl

/-- A stop keeps the relation. -/
theorem keeps_throw {α : Type} (h : Halt) : Run.Keeps (R slot) (throw h : Run α) :=
  K.keeps_of_final_eq fun _ => rfl

/-- A sequence keeps the relation if its parts do. -/
theorem keeps_bind {α β : Type} {x : Run α} {f : α → Run β} (hx : Run.Keeps (R slot) x)
    (hf : ∀ a, Run.Keeps (R slot) (f a)) : Run.Keeps (R slot) (x >>= f) :=
  Run.Keeps.bind (R := R slot) (K.trans slot) hx hf

/-- That two computations both keep the relation is a congruence. -/
theorem congruence :
    Congruence fun slot x y => Run.Keeps (R slot) x ∧ Run.Keeps (R slot) y where
  pure _ a := ⟨K.keeps_pure a, K.keeps_pure a⟩
  throw _ h := ⟨K.keeps_throw h, K.keeps_throw h⟩
  bind _ _ _ _ _ hx hf :=
    ⟨K.keeps_bind hx.1 fun a => (hf a).1, K.keeps_bind hx.2 fun a => (hf a).2⟩
  check slot := ⟨K.check slot, K.check slot⟩
  log slot entry := ⟨K.log slot entry, K.log slot entry⟩
  freshId slot := ⟨K.freshId slot, K.freshId slot⟩
  write slot piece := ⟨K.write slot piece, K.write slot piece⟩
  readLine slot := ⟨K.readLine slot, K.readLine slot⟩
  lookup slot name := by
    have hlookup : Run.Keeps (R slot) (Run.lookup slot name) :=
      K.keeps_of_final_eq (Run.final_lookup slot name)
    exact ⟨hlookup, hlookup⟩
  declare slot name v := ⟨K.declare slot name v, K.declare slot name v⟩
  assign slot name v := ⟨K.assign slot name v, K.assign slot name v⟩

/-- The declaration of parameters keeps the relation. -/
theorem keeps_declareAll (args : List Value) (index : Nat) (names : List String) :
    Run.Keeps (R slot) (Run.declareAll slot args index names) :=
  (K.congruence.declareAll args index names).1

/-- Every builtin keeps the relation. -/
theorem keeps_builtin (name : String) (args : List Value) :
    Run.Keeps (R slot) (Builtin.run name args) :=
  (K.congruence.builtin name args).1

/-- A statement list keeps what its statements keep. -/
theorem keeps_runBlock {ev : Node → Run Value} (hev : ∀ node, Run.Keeps (R slot) (ev node))
    (statements : List Node) : Run.Keeps (R slot) (runBlock ev statements) :=
  (K.congruence.runBlock (fun node => ⟨hev node, hev node⟩) statements).1

/-- Arguments keep what each of them keeps. -/
theorem keeps_runArgs {ev : Node → Run Value} (hev : ∀ node, Run.Keeps (R slot) (ev node))
    (args : List Node) : Run.Keeps (R slot) (runArgs ev args) :=
  (K.congruence.runArgs (fun node => ⟨hev node, hev node⟩) args).1

section Calls

variable {maxDepth : Int} {ev : Evaluator} (hev : ∀ slot node, Run.Keeps (R slot) (ev slot node))
include hev

/-- What is done in the frame of a call keeps the relation as seen from that frame. -/
theorem keeps_callBody (name : String) (f : Function) (args : List Value) (frame : Nat) :
    Run.Keeps (R frame) (callBody ev name f args frame) :=
  (K.congruence.callBody (fun slot node => ⟨hev slot node, hev slot node⟩) name f args frame).1

/-- Entering a function keeps the relation wherever there is a frame. -/
theorem final_enter {m : Machine} (hm : 0 < m.scopes.count) (tok : Token) (name : String)
    (f : Function) (args : List Value) :
    R slot m ((enter maxDepth ev slot tok name f args).final m) := by
  unfold Run.final
  by_cases hdepth : maxDepth ≤ m.depth
  · rw [enter_of_le hdepth]
    exact K.refl slot m
  · rw [enter_of_not_le hdepth]
    have hbody := K.keeps_callBody hev name f args m.scopes.count (Run.entered m slot)
    have hleft := K.leave slot hm hbody
    rw [← Run.final_inNewFrame] at hleft
    exact hleft

/-- A call keeps the relation: where the name is found there is a frame, and the arguments leave
the number of frames as it is. -/
theorem keeps_call (tok : Token) (name : String) (args : List Node) :
    Run.Keeps (R slot) (call maxDepth ev slot tok name args) := by
  refine K.keeps_bind (K.check slot) fun _ => ?_
  intro m
  rw [Run.final_bind]
  cases hl : Run.lookup slot name m with
  | error h m₁ =>
    have hm := Run.final_lookup slot name m
    rw [Run.final_of_error hl] at hm
    rw [hm]
    exact K.refl slot m
  | ok callee m₁ =>
    obtain ⟨rfl, hpos⟩ := Run.lookup_ok hl
    cases callee with
    | builtin id builtin =>
      exact K.keeps_bind (K.keeps_runArgs (hev slot) args) (fun _ => K.keeps_builtin _ _) m₁
    | function f =>
      dsimp only
      split
      · exact K.refl slot m₁
      · have hargs := K.keeps_runArgs (hev slot) args m₁
        rw [Run.final_bind]
        cases hr : runArgs (ev slot) args m₁ with
        | ok vs m₂ =>
          rw [Run.final_of_ok hr] at hargs
          have hpos₂ : 0 < m₂.scopes.count := by rw [K.count slot hargs]; exact hpos
          exact K.trans slot hargs (K.final_enter hev hpos₂ tok name f vs)
        | error h m₂ =>
          rw [Run.final_of_error hr] at hargs
          exact hargs
    | _ => exact K.refl slot m₁

/-- What a node does keeps the relation if the evaluation of smaller tasks does. -/
theorem keeps_step (node : Node) : Run.Keeps (R slot) (step maxDepth ev slot node) := by
  have hcall : ∀ tok name args, Run.Keeps (R slot) (call maxDepth ev slot tok name args) :=
    K.keeps_call hev
  exact (K.congruence.step (fun slot node => ⟨hev slot node, hev slot node⟩) node
    fun tok name args => ⟨hcall tok name args, hcall tok name args⟩).1

end Calls

/-- Evaluation keeps every relation that all actions keep, with any fuel and from any slot. -/
theorem eval (maxDepth : Int) (fuel slot : Nat) (node : Node) :
    Run.Keeps (R slot) (eval maxDepth fuel slot node) := by
  induction fuel generalizing slot node with
  | zero => exact K.keeps_throw _
  | succ fuel ih => exact K.keeps_step ih node

/-- A program keeps, as seen from the root, every relation that all actions keep. -/
theorem runProgram (options : Options) (fuel : Nat) (program : List Node) :
    Run.Keeps (R 0) (Session.runProgram options fuel program) := by
  apply K.keeps_bind (K.log 0 _)
  intro _
  have heval := K.eval options.maxDepth fuel 0
  exact (K.congruence.runStatements (fun node => ⟨heval node, heval node⟩) options.echo .nil
    program).1

end Kept

end Eval

end Offside
