import Offside.Proofs.Eval.Invariance
import Offside.Proofs.Session.Steps

/-!
# Variables that nothing assigns

Names are looked up where a function is called, so a call can reach every variable of its callers. A
variable is safe from that only if no code assigns its name: neither the tree that is evaluated, nor
the body of a function that a live frame binds. Functions travel, since they are passed as
arguments, returned and declared under other names, but a function that a run can get hold of comes
from a live frame or from a definition in the tree. `Spared` says that still no function assigns the
name and that every frame has kept the value it had for it. Every action spares the name but an
assignment to it (`Spares`), and so does the evaluation of every node (`Spares.eval`), however it
ends.
-/

set_option autoImplicit false

namespace Offside

/-! ## Trees that assign a name -/

mutual

/-- Whether a tree assigns the name anywhere, the bodies of its functions included. -/
def Node.assigns (x : String) : Node → Bool
  | .assignment _ name value => name == x || value.assigns x
  | .missing | .reference .. | .integer .. | .float .. | .string .. | .boolean .. | .nil .. => false
  | .block _ statements => Node.anyAssigns x statements
  | .declaration _ _ value | .ret _ value => value.assigns x
  | .unary _ _ operand => operand.assigns x
  | .binary _ _ left right => left.assigns x || right.assigns x
  | .definition _ _ _ _ body => Node.anyAssigns x body
  | .call _ _ args => Node.anyAssigns x args
  | .conditional _ branches => branches.assigns x
  | .loop _ condition _ body => condition.assigns x || Node.anyAssigns x body
  | .select _ subject arms => subject.assigns x || arms.assigns x

/-- Whether one of several trees assigns the name. -/
def Node.anyAssigns (x : String) : List Node → Bool
  | [] => false
  | n :: rest => n.assigns x || Node.anyAssigns x rest

/-- Whether branches assign the name. -/
def Branches.assigns (x : String) : Branches → Bool
  | .done => false
  | .otherwise _ body => Node.anyAssigns x body
  | .guarded condition _ body rest =>
      condition.assigns x || Node.anyAssigns x body || rest.assigns x

/-- Whether arms assign the name. -/
def Arms.assigns (x : String) : Arms → Bool
  | .done => false
  | .pattern _ pattern result rest => pattern.assigns x || result.assigns x || rest.assigns x
  | .wildcard _ result rest => result.assigns x || rest.assigns x

end

/-- Whether a value is a function whose body assigns the name. -/
def Value.assigns (x : String) : Value → Bool
  | .function f => Node.anyAssigns x f.body
  | _ => false

/-- What is no function at all assigns nothing. -/
theorem Value.assigns_of_kind {x : String} {v : Value} (h : v.kind ≠ .function) :
    v.assigns x = false := by
  cases v with
  | function f => exact absurd rfl h
  | _ => rfl

/-! ## Operators and input give no functions -/

/-- What is made of a line of input is no function. -/
theorem Value.kind_ofLine (line : Text) : (Value.ofLine line).kind ≠ .function := by
  unfold Value.ofLine
  dsimp only
  split
  · simp [kind]
  · split
    · split <;> simp [kind]
    · simp [kind]

namespace Operator

variable {op : Kind} {pos : Position} {v : Value}

/-- An operator in front of an operand gives no function. -/
theorem kind_unary {operand : Value} (h : unary op pos operand = .ok v) : v.kind ≠ .function := by
  unfold unary at h
  split at h
  all_goals first
    | (injection h with h; subst h; simp [Value.kind])
    | simp [misfit] at h

/-- An operator on whole numbers gives no function. -/
theorem kind_onInts {l r : Int64} (h : onInts op pos l r = .ok v) : v.kind ≠ .function := by
  unfold onInts at h
  repeat' split at h
  all_goals first
    | (injection h with h; subst h; simp [Value.kind])
    | simp [byZero] at h

/-- An operator on doubles gives no function. -/
theorem kind_onFloats {l r : Float} (h : onFloats op pos l r = .ok v) : v.kind ≠ .function := by
  unfold onFloats at h
  repeat' split at h
  all_goals first
    | (injection h with h; subst h; simp [Value.kind])
    | simp [byZero] at h

/-- An operator on numbers gives no function. -/
theorem kind_onNumbers {left right : Value} (h : onNumbers op pos left right = .ok v) :
    v.kind ≠ .function := by
  unfold onNumbers at h
  split at h
  · exact kind_onInts h
  · unfold asFloat at h
    cases hl : left.toFloat? with
    | none =>
      rw [hl] at h
      injection h
    | some l =>
      cases hr : right.toFloat? with
      | none =>
        rw [hl, hr] at h
        injection h
      | some r =>
        rw [hl, hr] at h
        exact kind_onFloats h

/-- An operator between operands gives no function. -/
theorem kind_binary {left right : Value} (h : binary op pos left right = .ok v) :
    v.kind ≠ .function := by
  unfold binary at h
  split at h
  · injection h with h
    subst h
    simp [Value.kind]
  · injection h with h
    subst h
    simp [Value.kind]
  · simp [misfit] at h
  · simp [misfit] at h
  · split at h
    · exact kind_onNumbers h
    · simp [misfit] at h

end Operator

/-! ## What a frame itself binds -/

namespace Scopes

variable {s s' : Scopes} {slot : Nat} {name : String} {v : Value}

/-- The value that the frame in a slot itself has for a name. -/
def bound? (s : Scopes) (slot : Nat) (name : String) : Option Value :=
  s.frames[slot]?.bind fun f => f.get? name

/-- A slot at which a name is bound is in use. -/
theorem lt_count_of_bound? (h : s.bound? slot name = some v) : slot < s.count := by
  obtain ⟨f, hf, -⟩ := Option.bind_eq_some_iff.mp h
  exact (Array.getElem?_eq_some_iff.mp hf).1

/-- What is found for a name, some frame binds it to. -/
theorem exists_bound?_of_get (h : s.get slot name = .ok v) : ∃ i, s.bound? i name = some v := by
  unfold get at h
  split at h
  · rename_i i w hfind
    injection h with h
    subst h
    obtain ⟨f, hf, hw⟩ := search_found hfind
    exact ⟨i, Option.bind_eq_some_iff.mpr ⟨f, hf, hw⟩⟩
  all_goals simp at h

/-- A change to one frame shows in what that frame binds and nowhere else. -/
theorem bound?_modify (s : Scopes) (k i : Nat) (g : Frame → Frame) (n : String) :
    bound? ⟨s.frames.modify k g⟩ i n =
      if k = i then s.frames[i]?.bind fun f => (g f).get? n else s.bound? i n := by
  unfold bound?
  rw [Array.getElem?_modify]
  split
  · rw [Option.bind_map]
    rfl
  · rfl

/-- A declaration binds one name in one frame, which did not bind it before. -/
theorem bound?_declare (h : s.declare slot name v = .ok s') :
    s.bound? slot name = none ∧ ∀ i n, s'.bound? i n =
      if i = slot ∧ n = name then some v else s.bound? i n := by
  obtain ⟨f, hf, hnone, rfl⟩ := declare_eq_ok_iff.mp h
  have hslot : ∀ n, s.bound? slot n = f.get? n := fun n => by
    unfold bound?
    rw [hf, Option.bind_some]
  refine ⟨(hslot name).trans hnone, fun i n => ?_⟩
  rw [bound?_modify]
  by_cases hi : slot = i
  · subst hi
    rw [if_pos rfl, hf, Option.bind_some, Frame.get?_insert, hslot]
    simp only [true_and]
  · rw [if_neg hi, if_neg fun h => hi h.1.symm]

/-- An assignment changes one name in one frame. -/
theorem bound?_set (h : s.set slot name v = .ok s') :
    ∃ k, ∀ i n, s'.bound? i n =
      if i = k ∧ n = name then (s.bound? i n).map fun _ => v else s.bound? i n := by
  obtain ⟨k, rfl⟩ := set_eq_ok h
  refine ⟨k, fun i n => ?_⟩
  rw [bound?_modify]
  by_cases hi : k = i
  · subst hi
    rw [if_pos rfl]
    unfold bound?
    cases s.frames[k]? with
    | none => simp
    | some f => simp only [Option.bind_some, Frame.get?_update, true_and]
  · rw [if_neg hi, if_neg fun h => hi h.1.symm]

/-- A new child binds nothing, and there was no frame in its slot. -/
theorem bound?_child (s : Scopes) (slot i : Nat) (n : String) :
    (s.child slot).1.bound? i n = s.bound? i n := by
  unfold bound?
  rw [getElem?_child]
  split
  · rename_i hi
    have hnone : s.frames[i]? = none := Array.getElem?_eq_none (by rw [hi]; exact Nat.le_refl _)
    rw [hnone]
    rfl
  · rfl

/-- The frame that is released is gone, and the others stay as they are. -/
theorem bound?_release (h : s.release slot = .ok s') (i : Nat) (n : String) :
    s'.bound? i n = if i = slot then none else s.bound? i n := by
  unfold release at h
  dsimp only at h
  split at h
  · rename_i htop
    injection h with h
    subst h
    unfold bound?
    rw [Array.getElem?_pop]
    split
    · rw [if_neg (by omega)]
    · rename_i hge
      split
      · rfl
      · rename_i hne
        have hnone : s.frames[i]? = none := Array.getElem?_eq_none (by omega)
        rw [hnone]
  · simp at h

end Scopes

/-! ## Machines that do not assign a name -/

/-- No function that a live frame binds assigns the name. -/
def Machine.NeverAssigns (x : String) (m : Machine) : Prop :=
  ∀ i name v, m.scopes.bound? i name = some v → v.assigns x = false

/-- Still no function that a live frame binds assigns the name, and every frame that had a value for
the name has kept it. -/
structure Spared (x : String) (m m' : Machine) : Prop where
  never : m'.NeverAssigns x
  value : ∀ i v, m.scopes.bound? i x = some v → m'.scopes.bound? i x = some v

namespace Spared

variable {x : String} {m m' m'' : Machine}

/-- A name is spared where the scopes stay as they are. -/
theorem of_eq (hm : m.NeverAssigns x) (hs : m'.scopes = m.scopes) : Spared x m m' where
  never := by
    unfold Machine.NeverAssigns
    rw [hs]
    exact hm
  value i v h := by rw [hs]; exact h

/-- What is spared and spared again is spared. -/
theorem trans (h₁ : Spared x m m') (h₂ : Spared x m' m'') : Spared x m m'' where
  never := h₂.never
  value i v h := h₂.value i v (h₁.value i v h)

/-- A call's own frame comes and goes: what is spared inside is spared for the caller, whether the
frame can be released or not. -/
theorem leave {slot : Nat} (h : Spared x (Run.entered m slot) m') :
    Spared x m ((Run.leave m.scopes.count).final m') := by
  have hcaller : ∀ i v, m.scopes.bound? i x = some v →
      i < m.scopes.count ∧ m'.scopes.bound? i x = some v := by
    intro i v hv
    refine ⟨Scopes.lt_count_of_bound? hv, h.value i v ?_⟩
    unfold Run.entered
    rw [Scopes.bound?_child]
    exact hv
  unfold Run.final Run.leave
  cases hr : m'.scopes.release m.scopes.count with
  | error e => exact ⟨h.never, fun i v hv => (hcaller i v hv).2⟩
  | ok s =>
    have hbound := Scopes.bound?_release hr
    constructor
    · intro i name v hv
      rw [hbound] at hv
      split at hv
      · simp at hv
      · exact h.never i name v hv
    · intro i v hv
      obtain ⟨hlt, hkept⟩ := hcaller i v hv
      rw [hbound, if_neg (by omega)]
      exact hkept

end Spared

/-! ## Computations that spare a name -/

/-- What comes of a body that is run in a new frame came of the body. -/
theorem Run.inNewFrame_ok {α : Type} {slot : Nat} {body : Nat → Run α} {m m' : Machine} {a : α}
    (h : Run.inNewFrame slot body m = .ok a m') :
    ∃ m₁, body m.scopes.count (Run.entered m slot) = .ok a m₁ := by
  simp only [Run.inNewFrame, Scopes.child] at h
  unfold Run.entered Scopes.child Scopes.count
  cases hr : body m.scopes.frames.size { m with
      scopes := ⟨m.scopes.frames.push ⟨[], some slot⟩⟩, depth := m.depth + 1 } with
  | ok v m₁ =>
    rw [hr] at h
    simp only [bind, EStateM.bind] at h
    cases hl : Run.leave m.scopes.frames.size m₁ with
    | ok u m₂ =>
      rw [hl] at h
      injection h with h
      exact ⟨m₁, by rw [h]⟩
    | error e m₂ => simp [hl] at h
  | error e m₁ =>
    rw [hr] at h
    simp only [bind, EStateM.bind] at h
    cases hl : Run.leave m.scopes.frames.size m₁ with
    | ok u m₂ =>
      rw [hl] at h
      injection h
    | error e' m₂ => simp [hl] at h

/-- From every machine without a function that assigns the name, the computation spares the name,
and what it gives has the property. -/
def Spares {α : Type} (x : String) (P : α → Prop) (c : Run α) : Prop :=
  ∀ m, m.NeverAssigns x → Spared x m (c.final m) ∧ ∀ a m', c m = .ok a m' → P a

namespace Spares

variable {α β : Type} {x : String} {P : α → Prop} {Q : β → Prop}

/-- A computation that leaves the scopes alone. -/
theorem of_scopes {c : Run α} (hs : ∀ m, (c.final m).scopes = m.scopes)
    (hP : ∀ m a m', m.NeverAssigns x → c m = .ok a m' → P a) : Spares x P c :=
  fun m hm => ⟨Spared.of_eq hm (hs m), fun a m' h => hP m a m' hm h⟩

/-- A value that has the property is given without touching a name. -/
theorem pure {a : α} (h : P a) : Spares x P (Pure.pure a : Run α) := by
  refine of_scopes (fun _ => rfl) fun m b m' _ hb => ?_
  injection hb with hb
  exact hb ▸ h

/-- A stop touches no name. -/
theorem throw (e : Halt) : Spares x P (MonadExcept.throw e : Run α) := by
  refine of_scopes (fun _ => rfl) fun m a m' _ h => ?_
  injection h

/-- Sequences spare a name if their first part does, and what follows it does. -/
theorem bind {c : Run α} {f : α → Run β} (hc : Spares x P c) (hf : ∀ a, P a → Spares x Q (f a)) :
    Spares x Q (c >>= f) := by
  intro m hm
  obtain ⟨hspared, hP⟩ := hc m hm
  rw [Run.final_bind]
  cases hr : c m with
  | ok a m₁ =>
    rw [Run.final_of_ok hr] at hspared
    obtain ⟨hspared', hQ⟩ := hf a (hP a m₁ hr) m₁ hspared.never
    refine ⟨hspared.trans hspared', fun b m' hb => hQ b m' ?_⟩
    simpa only [Bind.bind, EStateM.bind, hr] using hb
  | error e m₁ =>
    rw [Run.final_of_error hr] at hspared
    refine ⟨hspared, fun b m' hb => ?_⟩
    simp [Bind.bind, EStateM.bind, hr] at hb

/-! ### Single actions -/

/-- To look at the machine touches no name. -/
theorem get : Spares x (fun _ => True) (MonadState.get : Run Machine) :=
  of_scopes (fun _ => rfl) fun _ _ _ _ _ => trivial

/-- The question whether the run is cancelled touches no name. -/
theorem check : Spares x (fun _ => True) Run.check := by
  refine of_scopes (fun m => ?_) fun _ _ _ _ _ => trivial
  unfold Run.final Run.check
  rcases m.checksLeft with _ | _ | n <;> rfl

/-- A line of the journal touches no name. -/
theorem log (entry : JournalEntry) : Spares x (fun _ => True) (Run.log entry) :=
  of_scopes (fun _ => rfl) fun _ _ _ _ _ => trivial

/-- A new identity touches no name. -/
theorem freshId : Spares x (fun _ => True) Run.freshId :=
  of_scopes (fun _ => rfl) fun _ _ _ _ _ => trivial

/-- A write touches no name. -/
theorem write (piece : Text) : Spares x (fun _ => True) (Run.write piece) := by
  refine of_scopes (fun m => ?_) fun _ _ _ _ _ => trivial
  unfold Run.final Run.write
  rcases m.writesLeft with _ | _ | n <;> rfl

/-- Reading a line touches no name, and what is read assigns none. -/
theorem readLine : Spares x (fun v => v.assigns x = false) Builtin.readLine := by
  refine of_scopes (fun m => by rw [Run.final_readLine]) fun m v m' _ h => ?_
  unfold Builtin.readLine at h
  dsimp only at h
  by_cases h₁ : m.input.splitLine.1.endsLine
  · rw [if_pos h₁] at h
    injection h with h
    exact h ▸ Value.assigns_of_kind (Value.kind_ofLine _)
  · by_cases h₂ : m.inputBroken
    · simp [h₁, h₂] at h
    · rw [if_neg h₁, if_neg h₂] at h
      by_cases h₃ : m.input.splitLine.1.isEmpty
      · rw [if_pos h₃] at h
        injection h with h
        exact h ▸ rfl
      · rw [if_neg h₃] at h
        injection h with h
        exact h ▸ Value.assigns_of_kind (Value.kind_ofLine _)

/-- A lookup touches no name, and what it finds does not assign the name. -/
theorem lookup (slot : Nat) (name : String) :
    Spares x (fun v => v.assigns x = false) (Run.lookup slot name) := by
  refine of_scopes (fun m => by rw [Run.final_lookup]) fun m v m' hm h => ?_
  unfold Run.lookup at h
  cases hget : m.scopes.get slot name with
  | error e => simp [hget] at h
  | ok w =>
    rw [hget] at h
    injection h with h
    subst h
    obtain ⟨i, hi⟩ := Scopes.exists_bound?_of_get hget
    exact hm i name w hi

/-- A declaration cannot bind a name again in a frame that binds it. -/
theorem declare (slot : Nat) (name : String) {v : Value} (hv : v.assigns x = false) :
    Spares x (fun _ => True) (Run.declare slot name v) := by
  intro m hm
  refine ⟨?_, fun _ _ _ => trivial⟩
  unfold Run.final Run.declare
  cases hd : m.scopes.declare slot name v with
  | error e => exact Spared.of_eq hm rfl
  | ok s =>
    obtain ⟨hnone, hbound⟩ := Scopes.bound?_declare hd
    constructor
    · intro i n w hw
      rw [hbound] at hw
      split at hw
      · injection hw with hw
        exact hw ▸ hv
      · exact hm i n w hw
    · intro i w hw
      have hother : ¬(i = slot ∧ x = name) := by
        rintro ⟨rfl, rfl⟩
        simp [hnone] at hw
      rw [hbound, if_neg hother]
      exact hw

/-- An assignment to another name spares the name, if the value does not assign it either. -/
theorem assign (slot : Nat) {name : String} (hname : name ≠ x) {v : Value}
    (hv : v.assigns x = false) : Spares x (fun _ => True) (Run.assign slot name v) := by
  intro m hm
  refine ⟨?_, fun _ _ _ => trivial⟩
  unfold Run.final Run.assign
  cases hs : m.scopes.set slot name v with
  | error e => exact Spared.of_eq hm rfl
  | ok s =>
    obtain ⟨k, hbound⟩ := Scopes.bound?_set hs
    constructor
    · intro i n w hw
      rw [hbound] at hw
      split at hw
      · obtain ⟨old, -, rfl⟩ := Option.map_eq_some_iff.mp hw
        exact hv
      · exact hm i n w hw
    · intro i w hw
      rw [hbound, if_neg fun h => hname h.2.symm]
      exact hw

/-- What is done in a new frame spares a name if it does so by itself. -/
theorem inNewFrame (slot : Nat) {body : Nat → Run α} (hbody : ∀ frame, Spares x P (body frame)) :
    Spares x P (Run.inNewFrame slot body) := by
  intro m hm
  have hentered : (Run.entered m slot).NeverAssigns x := by
    intro i name v hv
    unfold Run.entered at hv
    rw [Scopes.bound?_child] at hv
    exact hm i name v hv
  obtain ⟨hspared, hP⟩ := hbody m.scopes.count (Run.entered m slot) hentered
  refine ⟨?_, fun a m' h => ?_⟩
  · rw [Run.final_inNewFrame]
    exact hspared.leave
  · obtain ⟨m₁, hr⟩ := Run.inNewFrame_ok h
    exact hP a m₁ hr

/-- The outcome of an operator is no function, and so assigns no name. -/
theorem lift {o : Except Halt Value} (h : ∀ v, o = .ok v → v.kind ≠ .function) :
    Spares x (fun v => v.assigns x = false) (Eval.lift o) := by
  cases o with
  | ok v => exact pure (Value.assigns_of_kind (h v rfl))
  | error e => exact throw e

/-- Declaring parameters spares a name, also if it is one of them. -/
theorem declareAll (slot : Nat) {args : List Value} (hargs : ∀ v ∈ args, v.assigns x = false)
    (index : Nat) (names : List String) :
    Spares x (fun _ => True) (Run.declareAll slot args index names) := by
  induction names generalizing index with
  | nil => exact pure trivial
  | cons name names ih =>
    unfold Run.declareAll
    cases harg : args[index]? with
    | none => exact throw _
    | some v =>
      have hv : v.assigns x = false := hargs v (List.mem_of_getElem? harg)
      exact bind (declare slot name hv) fun _ _ => ih (index + 1)

/-- Builtins touch no name. -/
theorem builtin (name : String) (args : List Value) :
    Spares x (fun v => v.assigns x = false) (Builtin.run name args) := by
  unfold Builtin.run
  split
  · exact bind (write _) fun _ _ => pure rfl
  · split
    · cases args with
      | nil => exact readLine
      | cons prompt rest => exact bind (write _) fun _ _ => readLine
    · exact pure rfl

/-! ### Statement lists, arguments, branches and arms -/

section Parts

variable {ev : Node → Run Value}
  (hev : ∀ n : Node, n.assigns x = false → Spares x (fun v => v.assigns x = false) (ev n))
include hev

/-- A statement list that does not assign the name spares it. -/
theorem runBlock (statements : List Node) (h : Node.anyAssigns x statements = false) :
    Spares x (fun v => (v.getD .nil).assigns x = false) (Eval.runBlock ev statements) := by
  fun_induction Eval.runBlock ev statements with
  | case1 => exact pure rfl
  | case2 tok value rest =>
    rw [Node.anyAssigns, Bool.or_eq_false_iff, Node.assigns] at h
    exact bind (hev value h.1) fun _ hv => pure hv
  | case3 statement rest hne ih =>
    rw [Node.anyAssigns, Bool.or_eq_false_iff] at h
    exact bind (hev statement h.1) fun _ _ => ih h.2

/-- Arguments that do not assign the name spare it. -/
theorem runArgs (args : List Node) (h : Node.anyAssigns x args = false) :
    Spares x (fun vs => ∀ v ∈ vs, v.assigns x = false) (Eval.runArgs ev args) := by
  induction args with
  | nil => exact pure fun v hv => absurd hv List.not_mem_nil
  | cons arg rest ih =>
    rw [Node.anyAssigns, Bool.or_eq_false_iff] at h
    refine bind (hev arg h.1) fun v hv => bind (ih h.2) fun vs hvs => pure ?_
    exact List.forall_mem_cons.mpr ⟨hv, hvs⟩

/-- Branches that do not assign the name spare it. -/
theorem runBranches (branches : Branches) (h : branches.assigns x = false) :
    Spares x (fun v => v.assigns x = false) (Eval.runBranches ev branches) := by
  fun_induction Eval.runBranches ev branches with
  | case1 => exact pure rfl
  | case2 tok body => exact bind (runBlock hev body h) fun _ _ => pure rfl
  | case3 condition tok body rest ih =>
    rw [Branches.assigns, Bool.or_eq_false_iff, Bool.or_eq_false_iff] at h
    obtain ⟨⟨hcondition, hbody⟩, hrest⟩ := h
    refine bind (hev condition hcondition) fun v _ => ?_
    split
    · exact bind (runBlock hev body hbody) fun _ _ => pure rfl
    · exact ih hrest

/-- Arms that do not assign the name spare it. -/
theorem runArms (subject : Value) (arms : Arms) (h : arms.assigns x = false) :
    Spares x (fun v => v.assigns x = false) (Eval.runArms ev subject arms) := by
  fun_induction Eval.runArms ev subject arms with
  | case1 => exact pure rfl
  | case2 tok result rest =>
    rw [Arms.assigns, Bool.or_eq_false_iff] at h
    exact hev result h.1
  | case3 tok pattern result rest ih =>
    rw [Arms.assigns, Bool.or_eq_false_iff, Bool.or_eq_false_iff] at h
    obtain ⟨⟨hpattern, hresult⟩, hrest⟩ := h
    refine bind (hev pattern hpattern) fun v _ => ?_
    split
    · exact hev result hresult
    · exact ih hrest

/-- A program that does not assign the name spares it. -/
theorem runStatements (echo : Bool) {result : Value} (hresult : result.assigns x = false)
    (program : List Node) (h : Node.anyAssigns x program = false) :
    Spares x (fun v => v.assigns x = false) (Session.runStatements echo ev result program) := by
  fun_induction Session.runStatements echo ev result program with
  | case1 result => exact bind (log _) fun _ _ => pure hresult
  | case2 result tok value rest =>
    rw [Node.anyAssigns, Bool.or_eq_false_iff, Node.assigns] at h
    exact hev value h.1
  | case3 result statement rest hne ih =>
    rw [Node.anyAssigns, Bool.or_eq_false_iff] at h
    refine bind (hev statement h.1) fun v hv => ih v ?_ h.2
    split
    · exact hv
    · rfl

end Parts

/-! ### Calls and nodes -/

section Nodes

variable {maxDepth : Int} {ev : Evaluator}
  (hev : ∀ (slot : Nat) (n : Node), n.assigns x = false →
    Spares x (fun v => v.assigns x = false) (ev slot n))
include hev

/-- The call of a function that does not assign the name spares it. -/
theorem enter (slot : Nat) (tok : Token) (name : String) {f : Function}
    (hf : Node.anyAssigns x f.body = false) {args : List Value}
    (hargs : ∀ v ∈ args, v.assigns x = false) :
    Spares x (fun v => v.assigns x = false) (Eval.enter maxDepth ev slot tok name f args) := by
  refine bind get fun m _ => ?_
  split
  · exact throw _
  · refine inNewFrame slot fun frame => ?_
    refine bind (declareAll frame hargs 0 f.params) fun _ _ => bind (log _) fun _ _ => ?_
    exact bind (runBlock (hev frame) f.body hf) fun v hv => pure hv

/-- The function that is called was bound in a live frame, so its body does not assign the name. -/
theorem call (slot : Nat) (tok : Token) (name : String) {args : List Node}
    (hargs : Node.anyAssigns x args = false) :
    Spares x (fun v => v.assigns x = false) (Eval.call maxDepth ev slot tok name args) := by
  refine bind check fun _ _ => bind (lookup slot name) fun callee hcallee => ?_
  split
  · exact bind (runArgs (hev slot) args hargs) fun vs _ => builtin _ vs
  · rename_i f
    split
    · exact throw _
    · exact bind (runArgs (hev slot) args hargs) fun vs hvs => enter hev slot tok name hcallee hvs
  · exact throw _

/-- A node that does not assign the name spares it, if the evaluator does so for such nodes. -/
theorem step (slot : Nat) (node : Node) (h : node.assigns x = false) :
    Spares x (fun v => v.assigns x = false) (Eval.step maxDepth ev slot node) := by
  cases node with
  | missing => exact throw _
  | block tok statements => exact bind (runBlock (hev slot) statements h) fun _ hv => pure hv
  | declaration tok name value =>
    exact bind (hev slot value h) fun v hv => bind (declare slot name hv) fun _ _ => pure rfl
  | assignment tok name value =>
    rw [Node.assigns, Bool.or_eq_false_iff, beq_eq_false_iff_ne] at h
    exact bind (hev slot value h.2) fun v hv => bind (assign slot h.1 hv) fun _ _ => pure rfl
  | reference tok name => exact lookup slot name
  | integer | float | string | boolean | nil => exact pure rfl
  | unary tok op operand =>
    exact bind (hev slot operand h) fun v _ => lift fun _ => Operator.kind_unary
  | binary tok op left right =>
    rw [Node.assigns, Bool.or_eq_false_iff] at h
    refine bind (hev slot left h.1) fun l _ => bind (hev slot right h.2) fun r _ => ?_
    exact lift fun _ => Operator.kind_binary
  | definition tok name params bodyTok body =>
    refine bind freshId fun id _ => bind (declare slot name ?_) fun _ _ => pure rfl
    exact h
  | call tok name args => exact call hev slot tok name h
  | conditional tok branches => exact runBranches (hev slot) branches h
  | loop tok condition bodyTok body =>
    have hparts := h
    rw [Node.assigns, Bool.or_eq_false_iff] at hparts
    refine bind check fun _ _ => bind (hev slot condition hparts.1) fun v _ => ?_
    split
    · exact bind (runBlock (hev slot) body hparts.2) fun _ _ => hev slot _ h
    · exact pure rfl
  | ret tok value => exact hev slot value h
  | select tok subject arms =>
    rw [Node.assigns, Bool.or_eq_false_iff] at h
    exact bind (hev slot subject h.1) fun v _ => runArms (hev slot) v arms h.2

end Nodes

/-- The induction is on the fuel: the parts of a node, the bodies of functions and the next round of
a loop all run on less of it. -/
theorem eval (maxDepth : Int) (fuel slot : Nat) (node : Node) (h : node.assigns x = false) :
    Spares x (fun v => v.assigns x = false) (eval maxDepth fuel slot node) := by
  induction fuel generalizing slot node with
  | zero => exact throw _
  | succ fuel ih => exact step ih slot node h

end Spares

/-! ## Sessions -/

namespace Session

variable {x : String}

/-- Whether a step runs a tree that assigns the name; a source that cannot be read runs none. -/
def Step.assigns (x : String) (step : Step) : Bool :=
  match step.task with
  | .tree node => node.assigns x
  | .source text =>
      match (Parse.ofText text).outcome with
      | .ok tree => tree.assigns x
      | .error _ => false

/-- The statements of a tree that does not assign the name do not either. -/
theorem anyAssigns_statementsOf {tree : Node} (h : tree.assigns x = false) :
    Node.anyAssigns x (statementsOf tree) = false := by
  unfold statementsOf
  split
  · exact h
  · rw [Node.anyAssigns, h]
    rfl

/-- The run of a tree that does not assign the name spares it. -/
theorem runTree_spares (s : Session) (hs : s.machine.NeverAssigns x) (fuel : Nat)
    (checks : Option Nat) {tree : Node} (h : tree.assigns x = false) :
    Spared x s.machine (s.runTree fuel checks tree).2.machine := by
  have hprogram : Spares x (fun v => v.assigns x = false)
      (runProgram s.options fuel (statementsOf tree)) := by
    apply Spares.bind (Spares.log _)
    intro _ _
    have heval := Spares.eval (x := x) s.options.maxDepth fuel 0
    exact Spares.runStatements heval s.options.echo rfl _ (anyAssigns_statementsOf h)
  have hasked : Machine.NeverAssigns x { s.machine with checksLeft := checks } := hs
  have hspared := (hprogram _ hasked).1
  unfold runTree
  cases hr : runProgram s.options fuel (statementsOf tree)
      { s.machine with checksLeft := checks } with
  | ok v m =>
    rw [Run.final_of_ok hr] at hspared
    simp only [hr]
    exact ⟨hspared.never, hspared.value⟩
  | error e m =>
    rw [Run.final_of_error hr] at hspared
    simp only [hr]
    exact ⟨hspared.never, hspared.value⟩

/-- A step that does not assign the name spares it. -/
theorem perform_spares (s : Session) (hs : s.machine.NeverAssigns x) {step : Step}
    (h : step.assigns x = false) : Spared x s.machine (s.perform step).2.machine := by
  unfold Step.assigns at h
  unfold perform
  cases htask : step.task with
  | tree node =>
    rw [htask] at h
    exact s.runTree_spares hs step.fuel step.checks h
  | source text =>
    rw [htask] at h
    unfold runText
    cases hp : (Parse.ofText text).outcome with
    | error e =>
      simp only [hp]
      exact Spared.of_eq hs rfl
    | ok tree =>
      simp only [hp] at h ⊢
      have hread := runTree_spares
        { s with machine.journal := journalOf (Parse.ofText text) ++ s.machine.journal } hs
        step.fuel step.checks h
      exact ⟨hread.never, hread.value⟩

/-- Any steps that do not assign the name spare it. -/
theorem after_spares (s : Session) (hs : s.machine.NeverAssigns x) {steps : List Step}
    (h : ∀ step ∈ steps, step.assigns x = false) :
    Spared x s.machine (s.after steps).machine := by
  induction steps generalizing s with
  | nil => exact Spared.of_eq hs rfl
  | cons step rest ih =>
    have hfirst := s.perform_spares hs (h step List.mem_cons_self)
    have hlater : ∀ later ∈ rest, later.assigns x = false :=
      fun later hmem => h later (List.mem_cons_of_mem step hmem)
    exact hfirst.trans (ih _ hfirst.never hlater)

end Session

/-- On a machine where no function that a live frame binds assigns a name, the evaluation of a tree
that does not assign it either, from any slot, with any fuel and however it ends, leaves the value of
the name as it was in every frame that had one; parameters and declarations of the same name on the
way make no difference. No function assigns the name afterwards, so the same is true of any steps of
a session that starts on such a machine. -/
theorem unassigned_variables_keep_their_values {x : String} {m : Machine}
    (hm : m.NeverAssigns x) :
    (∀ (maxDepth : Int) (fuel slot : Nat) (node : Node), node.assigns x = false →
      Spared x m ((eval maxDepth fuel slot node).final m)) ∧
    ∀ (options : Options) (steps : List Session.Step), (∀ step ∈ steps, step.assigns x = false) →
      Spared x m ((⟨options, m⟩ : Session).after steps).machine := by
  constructor
  · intro maxDepth fuel slot node hnode
    exact (Spares.eval maxDepth fuel slot node hnode m hm).1
  · intro options steps hsteps
    exact Session.after_spares ⟨options, m⟩ hm hsteps

/-- A parameter and a variable of a nested function have the name of a root variable, and the nested
function stops at a name that nothing declares. Both calls were made and another root variable was
assigned, but the one whose name was shadowed has kept its value. -/
theorem unassigned_variables_keep_their_values_shadowed :
    let nested := Node.definition .origin "g" [] .origin
      [.declaration .origin "x" (.integer .origin 3), .ret .origin (.reference .origin "z")]
    let body := [Node.assignment .origin "y" (.reference .origin "x"), nested,
      .ret .origin (.call .origin "g" [])]
    let root : Frame :=
      ⟨[("f", .function ⟨0, "f", ["x"], body⟩), ("y", .int 0), ("x", .int 1)], none⟩
    let m : Machine := ⟨⟨#[root]⟩, 0, [], false, [], none, none, 1, []⟩
    let node := Node.call .origin "f" [.integer .origin 2]
    let m' := (eval 10 10 0 node).final m
    (node.assigns "x" = false ∧ m.NeverAssigns "x" ∧ m.scopes.bound? 0 "x" = some (.int 1)) ∧
      m'.journal = [.call "g" 0 3, .call "f" 1 2] ∧
      (m'.scopes.bound? 0 "y").map Value.text = some (Text.ofString "2") ∧
      m'.scopes.bound? 0 "x" = some (.int 1) := by
  intro nested body root m node m'
  have hnode : node.assigns "x" = false := by decide
  have hroot : root.bindings.all (fun b => !b.2.assigns "x") = true := by decide
  have hm : m.NeverAssigns "x" := by
    intro i name v hv
    obtain ⟨f, hf, hv⟩ := Option.bind_eq_some_iff.mp hv
    have hmem : f ∈ [root] := Array.mem_toList_iff.mpr (Array.mem_of_getElem? hf)
    obtain rfl := List.mem_singleton.mp hmem
    obtain ⟨before, after, hbindings, -⟩ := List.lookup_eq_some_iff.mp hv
    have hb := List.all_eq_true.mp hroot (name, v) (by rw [hbindings]; simp)
    exact Bool.not_eq_true' _ ▸ hb
  have hx : m.scopes.bound? 0 "x" = some (.int 1) := rfl
  have hspared := (unassigned_variables_keep_their_values hm).1 10 10 0 node hnode
  exact ⟨⟨hnode, hm, hx⟩, by decide +kernel, by decide +kernel, hspared.value 0 _ hx⟩

end Offside
