import Offside.Proofs.Eval.Invariance
import Offside.Proofs.Scope.Chain

/-!
# The machine follows dynamic scoping

A machine represents a plain state if its frames form a chain whose maps are the stack of the state,
the slot looked from is the last one, as many calls are in progress as there are frames above the
root, and everything else is the same. The computations on both sides simulate each other: from a
machine and a state that it represents they give the same result, or stop for the same reason, and
leave a machine and a state that it represents. The simulation is carried through every form of
node, and from there to whole sessions.
-/

set_option autoImplicit false

namespace Offside

namespace Dynamic

/-- The machine, looked at from the given slot, is the plain state in frames. -/
structure Represents (slot : Nat) (m : Machine) (st : State) : Prop where
  last : slot + 1 = m.scopes.count
  chained : m.scopes.Chained
  maps : m.scopes.maps = st.stack
  depth : m.depth = slot
  input : m.input = st.input
  inputBroken : m.inputBroken = st.inputBroken
  output : m.output = st.output
  writesLeft : m.writesLeft = st.writesLeft
  checksLeft : m.checksLeft = st.checksLeft
  nextId : m.nextId = st.nextId

/-- Both computations gave the same result or stopped for the same reason, and the machine that one
left is the state that the other left. -/
def Agree {α : Type} (slot : Nat) :
    EStateM.Result Halt Machine α → EStateM.Result Halt State α → Prop
  | .ok a m, .ok b st => a = b ∧ Represents slot m st
  | .error h m, .error h' st => h = h' ∧ Represents slot m st
  | .ok _ _, .error _ _ => False
  | .error _ _, .ok _ _ => False

/-- From represented states, both computations agree. -/
def Simulates {α : Type} (slot : Nat) (x : Run α) (y : Act α) : Prop :=
  ∀ m st, Represents slot m st → Agree slot (x m) (y st)

namespace Simulates

variable {α β : Type} {slot : Nat} {x : Run α} {y : Act α}

/-- A value is simulated by itself. -/
theorem pure (a : α) : Simulates slot (Pure.pure a : Run α) (Pure.pure a : Act α) :=
  fun _ _ h => ⟨rfl, h⟩

/-- A stop is simulated by itself. -/
theorem throw (h : Halt) :
    Simulates slot (MonadExcept.throw h : Run α) (MonadExcept.throw h : Act α) :=
  fun _ _ hr => ⟨rfl, hr⟩

/-- Sequences agree if their first parts do, and their second parts do for every result that the
first part can give. -/
theorem bind_of_result {f : α → Run β} {g : α → Act β} (hx : Simulates slot x y)
    (hf : ∀ a m m', x m = .ok a m' → Simulates slot (f a) (g a)) :
    Simulates slot (x >>= f) (y >>= g) := by
  intro m st h
  have hxy := hx m st h
  show Agree slot (EStateM.bind x f m) (EStateM.bind y g st)
  unfold EStateM.bind
  cases hm : x m with
  | ok a m' =>
    cases hst : y st with
    | ok b st' =>
      rw [hm, hst] at hxy
      obtain ⟨rfl, h'⟩ := hxy
      exact hf a m m' hm m' st' h'
    | error e st' =>
      rw [hm, hst] at hxy
      exact hxy.elim
  | error e m' =>
    cases hst : y st with
    | ok b st' =>
      rw [hm, hst] at hxy
      exact hxy.elim
    | error e' st' =>
      rw [hm, hst] at hxy
      exact hxy

/-- Sequences are simulated part by part. -/
theorem bind {f : α → Run β} {g : α → Act β} (hx : Simulates slot x y)
    (hf : ∀ a, Simulates slot (f a) (g a)) : Simulates slot (x >>= f) (y >>= g) :=
  bind_of_result hx fun a _ _ _ => hf a

/-! ## The single actions -/

/-- The question whether the run is cancelled is simulated. -/
theorem check : Simulates slot Run.check check := by
  intro m st h
  unfold Run.check Dynamic.check
  rw [h.checksLeft]
  rcases hc : st.checksLeft with _ | _ | n
  · exact ⟨rfl, h⟩
  · exact ⟨rfl, h⟩
  · exact ⟨rfl, { h with checksLeft := rfl }⟩

/-- A new identity is simulated by the same identity. -/
theorem freshId : Simulates slot Run.freshId freshId := by
  intro m st h
  refine ⟨h.nextId, { h with nextId := ?_ }⟩
  show m.nextId + 1 = st.nextId + 1
  rw [h.nextId]

/-- A write is simulated by the same write. -/
theorem write (piece : Text) : Simulates slot (Run.write piece) (write piece) := by
  intro m st h
  have hout : piece :: m.output = piece :: st.output := by rw [h.output]
  unfold Run.write Dynamic.write
  rw [h.writesLeft]
  rcases hw : st.writesLeft with _ | _ | n
  · exact ⟨rfl, { h with output := hout, writesLeft := h.writesLeft.trans hw ▸ rfl }⟩
  · exact ⟨rfl, h⟩
  · exact ⟨rfl, { h with output := hout, writesLeft := rfl }⟩

/-- The line that is read is simulated by the same line. -/
theorem readLine : Simulates slot Builtin.readLine readLine := by
  intro m st h
  have hleft : Represents slot { m with input := m.input.splitLine.2 }
      { st with input := st.input.splitLine.2 } := { h with input := by rw [h.input] }
  have hline : m.input.splitLine.1 = st.input.splitLine.1 := by rw [h.input]
  unfold Builtin.readLine Dynamic.readLine
  dsimp only
  rw [hline]
  by_cases h₁ : st.input.splitLine.1.endsLine
  · rw [if_pos h₁, if_pos h₁]
    exact ⟨rfl, hleft⟩
  · rw [if_neg h₁, if_neg h₁]
    by_cases h₂ : st.inputBroken
    · rw [if_pos h₂, if_pos (h.inputBroken.trans h₂)]
      exact ⟨rfl, hleft⟩
    · rw [if_neg h₂, if_neg (by rw [h.inputBroken]; exact h₂)]
      by_cases h₃ : st.input.splitLine.1.isEmpty
      · rw [if_pos h₃, if_pos h₃]
        exact ⟨rfl, hleft⟩
      · rw [if_neg h₃, if_neg h₃]
        exact ⟨rfl, hleft⟩

/-- Only the journal of the machine is written, which the state does not have. -/
theorem log_bind (entry : JournalEntry) {x : Run α} (hx : Simulates slot x y) :
    Simulates slot (do Run.log entry; x) y := by
  intro m st h
  exact hx { m with journal := entry :: m.journal } st { h with }

/-- The outcome of an operator is simulated by itself. -/
theorem lift (o : Except Halt Value) : Simulates slot (Eval.lift o) (operate o) := by
  intro m st h
  cases o with
  | ok v => exact ⟨rfl, h⟩
  | error e => exact ⟨rfl, h⟩

/-- The frame that a name is found in is the innermost environment that binds it. -/
theorem lookup (name : String) : Simulates slot (Run.lookup slot name) (lookup name) := by
  intro m st h
  unfold Run.lookup Dynamic.lookup
  rw [Scopes.get_of_chained h.chained h.last, h.maps]
  cases st.stack.findSome? fun b => b name with
  | some v => exact ⟨rfl, h⟩
  | none => exact ⟨rfl, h⟩

/-- A declaration in a frame is one in the innermost environment. -/
theorem declare (name : String) (v : Value) :
    Simulates slot (Run.declare slot name v) (declare name v) := by
  intro m st h
  obtain ⟨b, outer, hmaps, hdeclare⟩ := Scopes.declare_of_chained h.last name v
  rw [h.maps] at hmaps
  unfold Run.declare Dynamic.declare
  rw [hmaps]
  dsimp only
  split at hdeclare
  · rename_i hb
    rw [hdeclare, if_pos hb]
    exact ⟨rfl, h⟩
  · rename_i hb
    obtain ⟨g, hok, hg, hnew⟩ := hdeclare
    rw [hok, if_neg hb]
    refine ⟨rfl, { h with last := ?_, chained := ?_, maps := hnew }⟩
    · rw [h.last]
      simp [Scopes.count]
    · exact Scopes.chained_modify h.chained slot g hg

/-- An assignment in a frame is one in the innermost environment that binds the name. -/
theorem assign (name : String) (v : Value) :
    Simulates slot (Run.assign slot name v) (assign name v) := by
  intro m st h
  have hset := Scopes.set_of_chained h.chained h.last name v
  rw [h.maps] at hset
  unfold Run.assign Dynamic.assign
  cases hr : reassigned name v st.stack with
  | none =>
    rw [hr] at hset
    rw [hset]
    exact ⟨rfl, h⟩
  | some stack =>
    rw [hr] at hset
    obtain ⟨i, g, hok, hg, hnew⟩ := hset
    rw [hok]
    refine ⟨rfl, { h with last := ?_, chained := ?_, maps := hnew }⟩
    · rw [h.last]
      simp [Scopes.count]
    · exact Scopes.chained_modify h.chained i g hg

/-- Leaving a frame pops the innermost map. -/
theorem represents_leave {m : Machine} {st : State} (h : Represents (slot + 1) m st) :
    ∃ m', Run.leave (slot + 1) m = .ok () m' ∧
      Represents slot m' { st with stack := st.stack.tail } := by
  have hcount : m.scopes.count = slot + 2 := h.last.symm
  have hrelease := Scopes.release_last m.scopes (by omega)
  rw [hcount, Nat.add_sub_cancel_right (slot + 1) 1] at hrelease
  refine ⟨{ m with scopes := ⟨m.scopes.frames.pop⟩, depth := m.depth - 1 }, ?_, ?_⟩
  · unfold Run.leave
    simp only [hrelease]
  · exact { h with
      last := by
        unfold Scopes.count at hcount ⊢
        rw [Array.size_pop, hcount]
        rfl
      chained := Scopes.chained_pop h.chained
      maps := by rw [Scopes.maps_pop, h.maps]
      depth := by
        show m.depth - 1 = slot
        rw [h.depth]
        rfl }

/-- A body run in a new frame is a body run with an empty map pushed. -/
theorem inNewFrame {body : Nat → Run α} {act : Act α}
    (hbody : Simulates (slot + 1) (body (slot + 1)) act) :
    Simulates slot (Run.inNewFrame slot body) (inEmptyMap act) := by
  intro m st h
  have hentered : Represents (slot + 1)
      { m with scopes := (m.scopes.child slot).1, depth := m.depth + 1 }
      { st with stack := .empty :: st.stack } := { h with
    last := by rw [Scopes.count_child, h.last]
    chained := Scopes.chained_child h.chained h.last
    maps := by rw [Scopes.maps_child, h.maps]
    depth := by
      show m.depth + 1 = slot + 1
      rw [h.depth] }
  have hagree := hbody _ _ hentered
  have hframe : (m.scopes.child slot).2 = slot + 1 := h.last.symm
  unfold Run.inNewFrame inEmptyMap
  dsimp only
  rw [hframe]
  -- the frame is left on both ways out of the body, and the ways out agree
  cases hm : body (slot + 1)
      { m with scopes := (m.scopes.child slot).1, depth := m.depth + 1 } with
  | ok v m₁ =>
    cases hst : act { st with stack := .empty :: st.stack } with
    | ok w st₁ =>
      rw [hm, hst] at hagree
      obtain ⟨rfl, h₁⟩ := hagree
      obtain ⟨m₂, hleave, h₂⟩ := represents_leave h₁
      show Agree slot (EStateM.bind (Run.leave (slot + 1)) _ m₁) _
      unfold EStateM.bind
      rw [hleave]
      exact ⟨rfl, h₂⟩
    | error e st₁ =>
      rw [hm, hst] at hagree
      exact hagree.elim
  | error e m₁ =>
    cases hst : act { st with stack := .empty :: st.stack } with
    | ok w st₁ =>
      rw [hm, hst] at hagree
      exact hagree.elim
    | error e' st₁ =>
      rw [hm, hst] at hagree
      obtain ⟨rfl, h₁⟩ := hagree
      obtain ⟨m₂, hleave, h₂⟩ := represents_leave h₁
      show Agree slot (EStateM.bind (Run.leave (slot + 1)) _ m₁) _
      unfold EStateM.bind
      rw [hleave]
      exact ⟨rfl, h₂⟩

/-- With enough arguments, declaring the parameters one index after the other declares them in
pairs with their arguments. -/
theorem declareAll (args : List Value) (index : Nat) (names : List String)
    (hlength : index + names.length ≤ args.length) :
    Simulates slot (Run.declareAll slot args index names)
      (declareAll (names.zip (args.drop index))) := by
  induction names generalizing index with
  | nil => exact pure ()
  | cons name names ih =>
    have hindex : index < args.length := by
      rw [List.length_cons] at hlength
      omega
    have hget : args[index]? = some args[index] := List.getElem?_eq_getElem hindex
    have hzip : (name :: names).zip (args.drop index) =
        (name, args[index]) :: names.zip (args.drop (index + 1)) := by
      rw [List.drop_eq_getElem_cons hindex, List.zip_cons_cons]
    rw [hzip]
    unfold Run.declareAll Dynamic.declareAll
    rw [hget]
    refine bind (declare name args[index]) fun _ => ih (index + 1) ?_
    rw [List.length_cons] at hlength
    omega

/-- The call of a builtin is simulated by the same call. -/
theorem builtin (name : String) (args : List Value) :
    Simulates slot (Builtin.run name args) (builtin name args) := by
  unfold Builtin.run
  by_cases hprint : name = "print"
  · rw [if_pos hprint, hprint]
    cases args with
    | nil => exact bind (write _) fun _ => pure _
    | cons v rest => exact bind (write _) fun _ => pure _
  · rw [if_neg hprint]
    by_cases hinput : name = "input"
    · rw [if_pos hinput, hinput]
      cases args with
      | nil => exact readLine
      | cons v rest => exact bind (write _) fun _ => readLine
    · have hother : Dynamic.builtin name args = Pure.pure .nil := by
        unfold Dynamic.builtin
        split <;> simp_all
      rw [if_neg hinput, hother]
      exact pure _

/-! ## The forms of nodes -/

section Forms

variable {ev : Node → Run Value} {act : Node → Act Value}
  (hev : ∀ node, Simulates slot (ev node) (act node))
include hev

/-- Statement lists are simulated statement by statement. -/
theorem block (statements : List Node) :
    Simulates slot (Eval.runBlock ev statements) (block act statements) := by
  fun_induction Eval.runBlock ev statements with
  | case1 => exact pure _
  | case2 tok value rest => exact bind (hev value) fun _ => pure _
  | case3 statement rest hne ih =>
    rw [Dynamic.block]
    · exact bind (hev statement) fun _ => ih
    · exact hne

/-- Argument lists are simulated argument by argument. -/
theorem arguments (args : List Node) :
    Simulates slot (Eval.runArgs ev args) (arguments act args) := by
  induction args with
  | nil => exact pure _
  | cons arg rest ih => exact bind (hev arg) fun v => bind ih fun vs => pure (v :: vs)

/-- Branches are simulated condition by condition and body by body. -/
theorem branches (bs : Branches) :
    Simulates slot (Eval.runBranches ev bs) (branches act bs) := by
  fun_induction Eval.runBranches ev bs with
  | case1 => exact pure _
  | case2 tok body => exact bind (block hev body) fun _ => pure _
  | case3 condition tok body rest ih =>
    refine bind (hev condition) fun v => ?_
    split
    · exact bind (block hev body) fun _ => pure _
    · exact ih

/-- Arms are simulated pattern by pattern. -/
theorem arms (subject : Value) (as : Arms) :
    Simulates slot (Eval.runArms ev subject as) (arms act subject as) := by
  fun_induction Eval.runArms ev subject as with
  | case1 => exact pure _
  | case2 tok result rest => exact hev result
  | case3 tok pattern result rest ih =>
    refine bind (hev pattern) fun v => ?_
    split
    · exact hev result
    · exact ih

/-- Programs are simulated statement by statement. -/
theorem statements (echo : Bool) (result : Value) (program : List Node) :
    Simulates slot (Session.runStatements echo ev result program)
      (statements echo act result program) := by
  fun_induction Session.runStatements echo ev result program with
  | case1 result => exact log_bind _ (pure result)
  | case2 result tok value rest => exact hev value
  | case3 result statement rest hne ih =>
    rw [Dynamic.statements]
    · exact bind (hev statement) ih
    · exact hne

end Forms

/-- Arguments give as many values as there are. -/
theorem length_of_runArgs {ev : Node → Run Value} {args : List Node} {m m' : Machine}
    {vs : List Value} (h : Eval.runArgs ev args m = .ok vs m') : vs.length = args.length := by
  induction args generalizing m m' vs with
  | nil =>
    injection h with hvs
    rw [← hvs]
    rfl
  | cons arg rest ih =>
    change EStateM.bind (ev arg) (fun v => EStateM.bind (Eval.runArgs ev rest) fun vs =>
      EStateM.pure (v :: vs)) m = .ok vs m' at h
    unfold EStateM.bind at h
    cases hv : ev arg m with
    | error e m₁ => simp [hv] at h
    | ok v m₁ =>
      cases hvs : Eval.runArgs ev rest m₁ with
      | error e m₂ => simp [hv, hvs] at h
      | ok vs' m₂ =>
        simp only [hv, hvs, EStateM.pure] at h
        injection h with hcons
        rw [← hcons, List.length_cons, List.length_cons, ih hvs]

section Calls

variable {maxDepth : Int} {ev : Evaluator} {act : Node → Act Value}
  (hev : ∀ slot node, Simulates slot (ev slot node) (act node))
include hev

/-- Entering a function with enough arguments: the limit is compared with the calls in progress on
one side and with the height of the stack on the other. -/
theorem enter (tok : Token) (name : String) (f : Function) (vs : List Value)
    (hlength : f.params.length ≤ vs.length) :
    Simulates slot (Eval.enter maxDepth ev slot tok name f vs) (do
      let st ← get
      if maxDepth ≤ (st.stack.length : Int) - 1 then
        MonadExcept.throw (.fault (.tooDeep name maxDepth tok.pos))
      else
        inEmptyMap do
          Dynamic.declareAll (f.params.zip vs)
          let v ← Dynamic.block act f.body
          Pure.pure (v.getD .nil)) := by
  intro m st h
  have hheight : (st.stack.length : Int) - 1 = m.depth := by
    have hlen : st.stack.length = slot + 1 := by
      rw [← h.maps, Scopes.maps, Scopes.length_mapsBelow, h.last]
    rw [hlen, h.depth]
    omega
  change Agree slot
    ((if maxDepth ≤ (m.depth : Int) then Run.fail (.tooDeep name maxDepth tok.pos)
      else Run.inNewFrame slot _) m)
    ((if maxDepth ≤ (st.stack.length : Int) - 1 then
        MonadExcept.throw (.fault (.tooDeep name maxDepth tok.pos))
      else inEmptyMap _) st)
  rw [hheight]
  split
  · exact ⟨rfl, h⟩
  · refine inNewFrame ?_ m st h
    refine bind (declareAll vs 0 f.params (by omega)) fun _ => ?_
    exact log_bind _ (bind (block (hev (slot + 1)) f.body) fun _ => pure _)

/-- A call in a new frame is simulated by one in a new environment. -/
theorem call (tok : Token) (name : String) (args : List Node) :
    Simulates slot (Eval.call maxDepth ev slot tok name args) (call maxDepth act tok name args) := by
  refine bind check fun _ => bind (lookup name) fun callee => ?_
  cases callee with
  | builtin id b => exact bind (arguments (hev slot) args) fun vs => builtin b vs
  | function f =>
    dsimp only
    split
    · exact throw _
    · rename_i harity
      refine bind_of_result (arguments (hev slot) args) fun vs m m' hvs => ?_
      have hlength := length_of_runArgs hvs
      exact enter hev tok name f vs (by omega)
  | _ => exact throw _

end Calls

/-- Evaluation on the machine and plain evaluation simulate each other, with any fuel. -/
theorem eval (maxDepth : Int) (fuel slot : Nat) (node : Node) :
    Simulates slot (Offside.eval maxDepth fuel slot node) (eval maxDepth fuel node) := by
  induction fuel generalizing slot node with
  | zero => exact throw _
  | succ fuel ih =>
    unfold Offside.eval Dynamic.eval
    cases node with
    | missing => exact throw _
    | block tok statements => exact bind (block (ih slot) statements) fun _ => pure _
    | declaration tok name value =>
      exact bind (ih slot value) fun v => bind (declare name v) fun _ => pure _
    | assignment tok name value =>
      exact bind (ih slot value) fun v => bind (assign name v) fun _ => pure _
    | reference tok name => exact lookup name
    | integer | float | string | boolean | nil => exact pure _
    | unary tok op operand => exact bind (ih slot operand) fun v => lift _
    | binary tok op left right =>
      exact bind (ih slot left) fun l => bind (ih slot right) fun r => lift _
    | definition tok name params bodyTok body =>
      exact bind freshId fun id => bind (declare name _) fun _ => pure _
    | call tok name args => exact call ih tok name args
    | conditional tok bs => exact branches (ih slot) bs
    | loop tok condition bodyTok body =>
      refine bind check fun _ => bind (ih slot condition) fun v => ?_
      split
      · exact bind (block (ih slot) body) fun _ => ih slot _
      · exact pure _
    | ret tok value => exact ih slot value
    | select tok subject as => exact bind (ih slot subject) fun v => arms (ih slot) v as

end Simulates

/-! ## Sessions -/

/-- The value of a name in the bottom map. -/
def State.global? (st : State) (name : String) : Option Value :=
  st.stack.getLast?.bind fun b => b name

/-- A new session's machine is the plain state in which sessions start. -/
theorem represents_start (options : Options) (input : Text) (broken : Bool)
    (writes : Option Nat) :
    Represents 0 (Session.start options input broken writes).machine
      (start input broken writes) where
  last := rfl
  chained := by
    intro i f hf
    rcases i with _ | i
    · simp only [Session.start, Session.initialScopes] at hf
      injection hf with hf
      rw [← hf]
      rfl
    · simp [Session.start, Session.initialScopes] at hf
  maps := by
    show [Scopes.mapAt _ 0] = [_]
    rw [Scopes.mapAt_eq (f := (Frame.insert ⟨[], none⟩ "print" (.builtin 0 "print")).insert "input"
      (.builtin 1 "input")) rfl, Scopes.get?_insert_eq_bind, Scopes.get?_insert_eq_bind]
    rfl
  depth := rfl
  input := rfl
  inputBroken := rfl
  output := rfl
  writesLeft := rfl
  checksLeft := rfl
  nextId := rfl

/-- From a machine that represents a state, the run of a tree gives the same and represents the
state that follows. -/
theorem runTree_agrees {s : Session} {st : State} (h : Represents 0 s.machine st) (fuel : Nat)
    (checks : Option Nat) (tree : Node) :
    (s.runTree fuel checks tree).1 = (runTree s.options fuel checks tree st).1 ∧
      Represents 0 (s.runTree fuel checks tree).2.machine
        (runTree s.options fuel checks tree st).2 := by
  have hchecks : Represents 0 { s.machine with checksLeft := checks }
      { st with checksLeft := checks } := { h with checksLeft := rfl }
  have hagree := Simulates.log_bind (.started (Session.statementsOf tree).length)
    (Simulates.statements (Simulates.eval s.options.maxDepth fuel 0) s.options.echo .nil
      (Session.statementsOf tree)) _ _ hchecks
  unfold Session.runTree runTree
  change Agree 0 (Session.runProgram s.options fuel (Session.statementsOf tree) _) _ at hagree
  dsimp only
  cases hm : Session.runProgram s.options fuel (Session.statementsOf tree)
      { s.machine with checksLeft := checks } with
  | ok v m =>
    cases hst : statements s.options.echo (eval s.options.maxDepth fuel) .nil
        (Session.statementsOf tree) { st with checksLeft := checks } with
    | ok w st' =>
      rw [hm, hst] at hagree
      exact ⟨congrArg Except.ok hagree.1, hagree.2⟩
    | error e st' =>
      rw [hm, hst] at hagree
      exact hagree.elim
  | error e m =>
    cases hst : statements s.options.echo (eval s.options.maxDepth fuel) .nil
        (Session.statementsOf tree) { st with checksLeft := checks } with
    | ok w st' =>
      rw [hm, hst] at hagree
      exact hagree.elim
    | error e' st' =>
      rw [hm, hst] at hagree
      exact ⟨congrArg Except.error hagree.1, hagree.2⟩

/-- From a machine that represents a state, a step gives the same and represents the state that
follows. -/
theorem perform_agrees {s : Session} {st : State} (h : Represents 0 s.machine st)
    (step : Session.Step) :
    (s.perform step).1 = (perform s.options st step).1 ∧
      Represents 0 (s.perform step).2.machine (perform s.options st step).2 := by
  unfold Session.perform perform
  cases step.task with
  | tree node => exact runTree_agrees h step.fuel step.checks node
  | source text =>
    unfold Session.runText
    dsimp only
    have hread : Represents 0
        { s.machine with
          journal := Session.journalOf (Parse.ofText text) ++ s.machine.journal } st := { h with }
    cases (Parse.ofText text).outcome with
    | ok tree => exact runTree_agrees (s := ⟨s.options, _⟩) hread step.fuel step.checks tree
    | error e => exact ⟨rfl, hread⟩

/-- From a machine that represents a state, all steps together represent the state that follows
them. -/
theorem after_agrees {s : Session} {st : State} (h : Represents 0 s.machine st)
    (steps : List Session.Step) :
    (s.after steps).options = s.options ∧
      Represents 0 (s.after steps).machine (after s.options st steps) := by
  induction steps generalizing s st with
  | nil => exact ⟨rfl, h⟩
  | cons step rest ih =>
    obtain ⟨-, hstep⟩ := perform_agrees h step
    have hrest := ih hstep
    rw [Session.options_perform] at hrest
    exact hrest

/-- The bottom map is what the root frame shows. -/
theorem global?_eq {s : Session} {st : State} (h : Represents 0 s.machine st) (name : String) :
    s.global? name = st.global? name := by
  have hmaps : st.stack = [s.machine.scopes.mapAt 0] := by
    rw [← h.maps, Scopes.maps, ← h.last]
    rfl
  unfold Session.global? State.global?
  rw [Scopes.get_of_chained h.chained h.last, h.maps, hmaps]
  simp only [List.findSome?_cons, List.findSome?_nil, List.getLast?_singleton, Option.bind_some]
  cases s.machine.scopes.mapAt 0 name <;> rfl

end Dynamic

/-- Evaluation over frames is dynamic scoping over a stack of maps. From every machine whose frames
form a chain and that is looked at from the last of them, evaluation does what plain evaluation
does; and in a session, whatever steps were taken before, every step gives the same value or stops
for the same reason, with the same output, the same input left and the same global bindings. -/
theorem session_follows_dynamic_scoping :
    (∀ (maxDepth : Int) (fuel slot : Nat) (node : Node),
      Dynamic.Simulates slot (eval maxDepth fuel slot node) (Dynamic.eval maxDepth fuel node)) ∧
    ∀ (options : Options) (input : Text) (broken : Bool) (writes : Option Nat)
      (steps : List Session.Step) (step : Session.Step),
      let s := (Session.start options input broken writes).after steps
      let st := Dynamic.after options (Dynamic.start input broken writes) steps
      (s.perform step).1 = (Dynamic.perform options st step).1 ∧
        s.machine.output = st.output ∧ s.machine.input = st.input ∧
        (∀ name, s.global? name = st.global? name) ∧
        s.machine.scopes.Chained ∧ s.machine.scopes.count = 1 := by
  refine ⟨Dynamic.Simulates.eval, ?_⟩
  intro options input broken writes steps step s st
  have hstart := Dynamic.represents_start options input broken writes
  obtain ⟨hoptions, hrep⟩ := Dynamic.after_agrees hstart steps
  have hstep := (Dynamic.perform_agrees hrep step).1
  rw [hoptions] at hstep
  exact ⟨hstep, hrep.output, hrep.input, Dynamic.global?_eq hrep, hrep.chained, hrep.last.symm⟩

end Offside
