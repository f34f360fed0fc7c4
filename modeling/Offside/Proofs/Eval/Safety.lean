import Offside.Proofs.Eval.Refinement
import Offside.Proofs.Tree.StatementSound

/-!
# Programs that were read meet no defect

A value is sound if it is no function or a function with well-formed statements as its body. In a
calm state every value that a name stands for is sound, the input and the output work, and the run
is not going to be cancelled. From a calm state every well-formed statement gives a sound value or
stops with a fault, unless its fuel is used up, and leaves a calm state. The machine does the same
as the plain state (`Dynamic.Simulates`), so neither of them meets a defect.
-/

set_option autoImplicit false

namespace Offside

/-- The value is no function, or a function with well-formed statements as its body. -/
def Value.Sound : Value → Prop
  | .function f => Node.areStatements f.body = true
  | _ => True

namespace Operator

/-- What an operator gives is a sound value or a fault. -/
def Gives (o : Outcome) : Prop :=
  match o with
  | .ok v => v.Sound
  | .error h => h.IsFault

/-- An operator that may stand in front of an operand gives a sound value or a fault. -/
theorem gives_unary {op : Kind} (hop : op ∈ Grammar.unaryOperators) (pos : Position) (v : Value) :
    Gives (unary op pos v) := by
  simp only [Grammar.unaryOperators, List.mem_cons, List.not_mem_nil, or_false] at hop
  rcases hop with rfl | rfl | rfl <;> cases v <;> first | trivial | exact ⟨_, rfl⟩

/-- The operators between numbers: all binary operators but the two logical ones. -/
def numeric : List Kind :=
  [.equal, .notEqual, .less, .greater, .lessEqual, .greaterEqual, .plus, .minus, .times, .divide,
    .modulo]

/-- An operator on whole numbers gives a sound value or a fault. -/
theorem gives_onInts {op : Kind} (hop : op ∈ numeric) (pos : Position) (l r : Int64) :
    Gives (onInts op pos l r) := by
  simp only [numeric, List.mem_cons, List.not_mem_nil, or_false] at hop
  rcases hop with rfl | rfl | rfl | rfl | rfl | rfl | rfl | rfl | rfl | rfl | rfl <;>
    first
    | trivial
    | (unfold onInts; dsimp only; split <;> first | trivial | exact ⟨_, rfl⟩)

/-- An operator on doubles gives a sound value or a fault. -/
theorem gives_onFloats {op : Kind} (hop : op ∈ numeric) (pos : Position) (l r : Float) :
    Gives (onFloats op pos l r) := by
  simp only [numeric, List.mem_cons, List.not_mem_nil, or_false] at hop
  rcases hop with rfl | rfl | rfl | rfl | rfl | rfl | rfl | rfl | rfl | rfl | rfl <;>
    first
    | trivial
    | (unfold onFloats; dsimp only; split <;> first | trivial | exact ⟨_, rfl⟩)

/-- Two numbers can both be read as doubles. -/
theorem gives_onNumbers {op : Kind} (hop : op ∈ numeric) (pos : Position) {left right : Value}
    (hl : left.isNumeric = true) (hr : right.isNumeric = true) :
    Gives (onNumbers op pos left right) := by
  cases left with
  | int l =>
    cases right with
    | int r => exact gives_onInts hop pos l r
    | float r => exact gives_onFloats hop pos l.toFloat r
    | _ => simp [Value.isNumeric] at hr
  | float l =>
    cases right with
    | int r => exact gives_onFloats hop pos l r.toFloat
    | float r => exact gives_onFloats hop pos l r
    | _ => simp [Value.isNumeric] at hr
  | _ => simp [Value.isNumeric] at hl

/-- An operator that may stand between operands gives a sound value or a fault. -/
theorem gives_binary {op : Kind} (hop : op ∈ Grammar.binaryOperators) (pos : Position)
    (left right : Value) : Gives (binary op pos left right) := by
  have hsplit : op = .andWord ∨ op = .orWord ∨ op ∈ numeric := by
    revert hop
    simp only [Grammar.binaryOperators, Grammar.levels, numeric, List.flatten_cons,
      List.flatten_nil, List.cons_append, List.nil_append, List.mem_cons, List.not_mem_nil,
      or_false]
    tauto
  rcases hsplit with rfl | rfl | hop
  · cases left <;> cases right <;> first | trivial | exact ⟨_, rfl⟩
  · cases left <;> cases right <;> first | trivial | exact ⟨_, rfl⟩
  · have hother : binary op pos left right =
        if left.isNumeric && right.isNumeric then onNumbers op pos left right
        else misfit op left.kind.name right.kind.name pos := by
      unfold binary
      split <;> first | rfl | simp [numeric] at hop
    rw [hother]
    split
    · rename_i hnumeric
      rw [Bool.and_eq_true] at hnumeric
      exact gives_onNumbers hop pos hnumeric.1 hnumeric.2
    · exact ⟨_, rfl⟩

end Operator

/-- What is made of a line of input is no function, and so sound. -/
theorem Value.sound_ofLine (line : Text) : (Value.ofLine line).Sound := by
  unfold Value.ofLine
  dsimp only
  split
  · trivial
  · split
    · split <;> trivial
    · trivial

namespace Dynamic

/-- Every name of the map stands for a sound value. -/
def Bindings.Sound (b : Bindings) : Prop := ∀ name v, b name = some v → v.Sound

/-- All values are sound, the input and the output work, and the run is not going to be
cancelled. -/
structure State.Calm (st : State) : Prop where
  sound : ∀ b ∈ st.stack, b.Sound
  inputWorks : st.inputBroken = false
  outputWorks : st.writesLeft = none
  uncancelled : st.checksLeft = none

/-- Bindings to sound values stay so when a name is bound to another sound value. -/
theorem Bindings.Sound.bind {b : Bindings} (h : b.Sound) (name : String) {v : Value}
    (hv : v.Sound) : (b.bind name v).Sound := by
  intro n w hw
  unfold Bindings.bind at hw
  split at hw
  · injection hw with hw
    rw [← hw]
    exact hv
  · exact h n w hw

/-- From calm states the computation gives a result with the property or stops with a fault, unless
the fuel is used up, and leaves a calm state. -/
def Safe {α : Type} (x : Act α) (P : α → Prop) : Prop :=
  ∀ st : State, st.Calm →
    match x st with
    | .ok a st' => P a ∧ st'.Calm
    | .error h st' => (h.IsFault ∨ h = .outOfFuel) ∧ st'.Calm

namespace Safe

variable {α β : Type} {P : α → Prop} {Q : β → Prop}

/-- A value that has the property is given safely. -/
theorem pure {a : α} (h : P a) : Safe (Pure.pure a : Act α) P := fun _ hst => ⟨h, hst⟩

/-- A fault is a safe way to stop. -/
theorem fault (f : Fault) : Safe (throw (.fault f) : Act α) P :=
  fun _ hst => ⟨Or.inl ⟨f, rfl⟩, hst⟩

/-- Sequences are safe if their first part is, and what follows it is for every value it can give.
-/
theorem bind {x : Act α} {f : α → Act β} (hx : Safe x P) (hf : ∀ a, P a → Safe (f a) Q) :
    Safe (x >>= f) Q := by
  intro st hst
  have h := hx st hst
  show match EStateM.bind x f st with
    | .ok a st' => Q a ∧ st'.Calm
    | .error h st' => (h.IsFault ∨ h = .outOfFuel) ∧ st'.Calm
  unfold EStateM.bind
  cases hr : x st with
  | ok a st' =>
    rw [hr] at h
    exact hf a h.1 st' h.2
  | error e st' =>
    rw [hr] at h
    exact h

/-! ## The single actions -/

/-- Where a run is not cancelled, the question whether it is does no harm. -/
theorem check : Safe check fun _ => True := by
  intro st hst
  unfold Dynamic.check
  rw [hst.uncancelled]
  exact ⟨trivial, hst⟩

/-- A new identity leaves the state calm. -/
theorem freshId : Safe freshId fun _ => True := fun _ hst => ⟨trivial, { hst with }⟩

/-- Where the output works, a write succeeds. -/
theorem write (piece : Text) : Safe (write piece) fun _ => True := by
  intro st hst
  unfold Dynamic.write
  rw [hst.outputWorks]
  exact ⟨trivial, { hst with outputWorks := rfl }⟩

/-- Where the input works, a line or nil is read. -/
theorem readLine : Safe readLine Value.Sound := by
  intro st hst
  have hleft : State.Calm { st with input := st.input.splitLine.2 } := { hst with }
  unfold Dynamic.readLine
  dsimp only
  rw [hst.inputWorks]
  by_cases h₁ : st.input.splitLine.1.endsLine
  · rw [if_pos h₁]
    exact ⟨Value.sound_ofLine _, hst.inputWorks ▸ hleft⟩
  · rw [if_neg h₁, if_neg Bool.false_ne_true]
    by_cases h₂ : st.input.splitLine.1.isEmpty
    · rw [if_pos h₂]
      exact ⟨trivial, hst.inputWorks ▸ hleft⟩
    · rw [if_neg h₂]
      exact ⟨Value.sound_ofLine _, hst.inputWorks ▸ hleft⟩

/-- A name is bound to a sound value, or the lookup is a fault. -/
theorem lookup (name : String) : Safe (lookup name) Value.Sound := by
  intro st hst
  unfold Dynamic.lookup
  cases hf : st.stack.findSome? fun b => b name with
  | none => exact ⟨Or.inl ⟨_, rfl⟩, hst⟩
  | some v =>
    obtain ⟨b, hb, hv⟩ := List.exists_of_findSome?_eq_some hf
    exact ⟨hst.sound b hb name v hv, hst⟩

/-- A name is declared with a sound value, or the declaration is a fault. -/
theorem declare (name : String) {v : Value} (hv : v.Sound) :
    Safe (declare name v) fun _ => True := by
  intro st hst
  unfold Dynamic.declare
  cases hs : st.stack with
  | nil => exact ⟨trivial, hst⟩
  | cons b outer =>
    have hsound := hst.sound
    rw [hs] at hsound
    dsimp only
    by_cases hdeclared : (b name).isSome
    · rw [if_pos hdeclared]
      exact ⟨Or.inl ⟨_, rfl⟩, hst⟩
    · rw [if_neg hdeclared]
      refine ⟨trivial, { hst with sound := ?_ }⟩
      intro b' hb'
      rcases List.mem_cons.mp hb' with rfl | hb'
      · exact (hsound b List.mem_cons_self).bind name hv
      · exact hsound b' (List.mem_cons_of_mem b hb')

/-- A stack of sound bindings stays so when a name in it is given a sound value. -/
theorem sound_of_reassigned {name : String} {v : Value} (hv : v.Sound) {stack stack' : List Bindings}
    (hs : ∀ b ∈ stack, b.Sound) (h : reassigned name v stack = some stack') :
    ∀ b ∈ stack', b.Sound := by
  induction stack generalizing stack' with
  | nil => simp [reassigned] at h
  | cons b outer ih =>
    unfold reassigned at h
    split at h
    · injection h with h
      rw [← h]
      intro b' hb'
      rcases List.mem_cons.mp hb' with rfl | hb'
      · exact (hs b List.mem_cons_self).bind name hv
      · exact hs b' (List.mem_cons_of_mem b hb')
    · obtain ⟨outer', houter, rfl⟩ := Option.map_eq_some_iff.mp h
      intro b' hb'
      rcases List.mem_cons.mp hb' with rfl | hb'
      · exact hs b' List.mem_cons_self
      · exact ih (fun b hb => hs b (List.mem_cons_of_mem _ hb)) houter b' hb'

/-- A name is given a sound value, or the assignment is a fault. -/
theorem assign (name : String) {v : Value} (hv : v.Sound) : Safe (assign name v) fun _ => True := by
  intro st hst
  unfold Dynamic.assign
  cases hr : reassigned name v st.stack with
  | none => exact ⟨Or.inl ⟨_, rfl⟩, hst⟩
  | some stack => exact ⟨trivial, { hst with sound := sound_of_reassigned hv hst.sound hr }⟩

/-- What is done in new bindings is as safe as it is by itself. -/
theorem inEmptyMap {body : Act α} (hbody : Safe body P) : Safe (inEmptyMap body) P := by
  intro st hst
  have hpushed : State.Calm { st with stack := .empty :: st.stack } := { hst with
    sound := by
      intro b hb
      rcases List.mem_cons.mp hb with rfl | hb
      · intro name v h
        simp [Bindings.empty] at h
      · exact hst.sound b hb }
  have hpopped : ∀ st' : State, st'.Calm → State.Calm { st' with stack := st'.stack.tail } :=
    fun st' h => { h with sound := fun b hb => h.sound b (List.mem_of_mem_tail hb) }
  have h := hbody _ hpushed
  unfold Dynamic.inEmptyMap
  cases hr : body { st with stack := .empty :: st.stack } with
  | ok v st' =>
    rw [hr] at h
    exact ⟨h.1, hpopped st' h.2⟩
  | error e st' =>
    rw [hr] at h
    exact ⟨h.1, hpopped st' h.2⟩

/-- An operator that gives a sound value or a fault is safe. -/
theorem operate {o : Except Halt Value} (h : Operator.Gives o) : Safe (operate o) Value.Sound := by
  intro st hst
  cases o with
  | ok v => exact ⟨h, hst⟩
  | error e => exact ⟨Or.inl h, hst⟩

/-- Names are declared one by one with sound values. -/
theorem declareAll (pairs : List (String × Value)) (h : ∀ p ∈ pairs, p.2.Sound) :
    Safe (declareAll pairs) fun _ => True := by
  induction pairs with
  | nil => exact pure trivial
  | cons p rest ih =>
    obtain ⟨name, v⟩ := p
    refine bind (declare name (h _ List.mem_cons_self)) fun _ _ => ?_
    exact ih fun q hq => h q (List.mem_cons_of_mem _ hq)

/-- Every builtin gives a sound value, whatever its arguments are. -/
theorem builtin (name : String) (args : List Value) : Safe (builtin name args) Value.Sound := by
  unfold Dynamic.builtin
  split
  · exact bind (write _) fun _ _ => pure trivial
  · exact bind (write _) fun _ _ => pure trivial
  · exact readLine
  · exact bind (write _) fun _ _ => readLine
  · exact pure trivial

/-! ## Statement lists, branches, arms and calls -/

variable {ev : Node → Act Value}

/-- What the constructs need of the evaluator of their parts: it is safe on statements, and on nil,
which stands for a value that was left out. -/
structure Evaluator (ev : Node → Act Value) : Prop where
  left_out : ∀ n : Node, n.isNil = true → Safe (ev n) Value.Sound
  statement : ∀ n : Node, n.isStatement = true → Safe (ev n) Value.Sound

/-- An evaluator that is safe on statements is safe on expressions. -/
theorem Evaluator.expr (hev : Evaluator ev) {n : Node} (h : n.isExpr = true) :
    Safe (ev n) Value.Sound :=
  hev.statement n (Node.isStatement_of_isExpr h)

/-- An expression may be left out. -/
theorem Evaluator.optional (hev : Evaluator ev) {n : Node} (h : (n.isNil || n.isExpr) = true) :
    Safe (ev n) Value.Sound := by
  rcases Bool.or_eq_true _ _ ▸ h with h | h
  · exact hev.left_out n h
  · exact hev.expr h

/-- A list of well-formed statements gives a sound value, or nil in its place. -/
theorem block (hev : Evaluator ev) (statements : List Node)
    (h : Node.areStatements statements = true) :
    Safe (block ev statements) fun v => (v.getD .nil).Sound := by
  fun_induction Dynamic.block ev statements with
  | case1 => exact pure trivial
  | case2 tok value rest =>
    rw [Node.areStatements, Bool.and_eq_true, Node.isStatement] at h
    exact bind (hev.optional h.1) fun v hv => pure hv
  | case3 statement rest hret ih =>
    rw [Node.areStatements, Bool.and_eq_true] at h
    exact bind (hev.statement statement h.1) fun _ _ => ih h.2

/-- Well-formed arguments give sound values. -/
theorem arguments (hev : Evaluator ev) (args : List Node) (h : Node.areExprs args = true) :
    Safe (arguments ev args) fun vs => ∀ v ∈ vs, v.Sound := by
  induction args with
  | nil => exact pure fun v hv => absurd hv List.not_mem_nil
  | cons arg rest ih =>
    rw [Node.areExprs, Bool.and_eq_true] at h
    refine bind (hev.expr h.1) fun v hv => bind (ih h.2) fun vs hvs => pure ?_
    exact List.forall_mem_cons.mpr ⟨hv, hvs⟩

/-- Well-formed branches give a sound value. -/
theorem branches (hev : Evaluator ev) (bs : Branches) (h : bs.areWellFormed = true) :
    Safe (branches ev bs) Value.Sound := by
  fun_induction Dynamic.branches ev bs with
  | case1 => exact pure trivial
  | case2 tok body =>
    rw [Branches.areWellFormed, Bool.and_eq_true] at h
    exact bind (block hev body h.2) fun _ _ => pure trivial
  | case3 condition tok body rest ih =>
    simp only [Branches.areWellFormed, Bool.and_eq_true] at h
    obtain ⟨⟨⟨⟨hcondition, -⟩, hbody⟩, -⟩, hrest⟩ := h
    refine bind (hev.expr hcondition) fun v _ => ?_
    split
    · exact bind (block hev body hbody) fun _ _ => pure trivial
    · exact ih hrest

/-- Well-formed arms give a sound value, whatever the subject is. -/
theorem arms (hev : Evaluator ev) (subject : Value) (as : Arms) (h : as.areWellFormed = true) :
    Safe (arms ev subject as) Value.Sound := by
  fun_induction Dynamic.arms ev subject as with
  | case1 => exact pure trivial
  | case2 tok result rest =>
    rw [Arms.areWellFormed, Bool.and_eq_true] at h
    exact hev.expr h.1
  | case3 tok pattern result rest ih =>
    simp only [Arms.areWellFormed, Bool.and_eq_true] at h
    refine bind (hev.expr h.1.1) fun v _ => ?_
    split
    · exact hev.expr h.1.2
    · exact ih h.2

/-- A body that was stored as a function's is made of well-formed statements, since the function is
a sound value. -/
theorem call (maxDepth : Int) (hev : Evaluator ev) (tok : Token) (name : String) (args : List Node)
    (h : Node.areExprs args = true) : Safe (call maxDepth ev tok name args) Value.Sound := by
  unfold Dynamic.call
  refine bind check fun _ _ => bind (lookup name) fun callee hcallee => ?_
  split
  · exact bind (arguments hev args h) fun vs _ => builtin _ vs
  · rename_i f
    split
    · exact fault _
    · refine bind (arguments hev args h) fun vs hvs => ?_
      refine bind (P := fun _ => True) (fun st hst => ⟨trivial, hst⟩) fun st _ => ?_
      split
      · exact fault _
      · refine inEmptyMap (bind (declareAll _ ?_) fun _ _ => ?_)
        · exact fun p hp => hvs p.2 (List.of_mem_zip hp).2
        · exact bind (block hev f.body hcallee) fun v hv => pure hv
  · exact fault _

/-! ## Evaluation and whole runs -/

/-- The induction is on the fuel: parts of a node, bodies of functions and the next round of a loop
all run on less of it. -/
theorem evaluator (maxDepth : Int) (fuel : Nat) : Evaluator (Dynamic.eval maxDepth fuel) := by
  induction fuel with
  | zero =>
    have hempty : ∀ n, Safe (Dynamic.eval maxDepth 0 n) Value.Sound :=
      fun n st hst => ⟨Or.inr rfl, hst⟩
    exact ⟨fun n _ => hempty n, fun n _ => hempty n⟩
  | succ fuel hev =>
    refine ⟨?_, ?_⟩
    · intro n h
      cases n <;> simp only [Node.isNil, Bool.false_eq_true] at h
      exact pure trivial
    · intro n h
      unfold Dynamic.eval
      cases n with
      -- the first two forms are no statements, so `h` excludes them
      | missing => simp [Node.isStatement, Node.isExpr] at h
      | block => simp [Node.isStatement, Node.isExpr] at h
      | declaration tok name value =>
        rw [Node.isStatement, Bool.and_eq_true] at h
        exact bind (hev.optional h.2) fun v hv => bind (declare name hv) fun _ _ => pure trivial
      | assignment tok name value =>
        rw [Node.isStatement, Bool.and_eq_true] at h
        exact bind (hev.expr h.2) fun v hv => bind (assign name hv) fun _ _ => pure trivial
      | reference tok name => exact lookup name
      | integer => exact pure trivial
      | float => exact pure trivial
      | string => exact pure trivial
      | boolean => exact pure trivial
      | nil => exact pure trivial
      | unary tok op operand =>
        simp only [Node.isStatement, Node.isExpr, Bool.and_eq_true, List.contains_iff_mem] at h
        exact bind (hev.expr h.2) fun v _ => operate (Operator.gives_unary h.1 tok.pos v)
      | binary tok op left right =>
        simp only [Node.isStatement, Node.isExpr, Bool.and_eq_true, List.contains_iff_mem] at h
        refine bind (hev.expr h.1.2) fun l _ => bind (hev.expr h.2) fun r _ => ?_
        exact operate (Operator.gives_binary h.1.1 tok.pos l r)
      | definition tok name params bodyTok body =>
        simp only [Node.isStatement, Bool.and_eq_true] at h
        refine bind freshId fun id _ => bind (declare name ?_) fun _ _ => pure trivial
        -- a function is sound if its body is well formed
        exact h.2
      | call tok name args =>
        simp only [Node.isStatement, Node.isExpr, Bool.and_eq_true] at h
        exact call maxDepth hev tok name args h.2
      | conditional tok bs =>
        rw [Node.isStatement, Bool.and_eq_true] at h
        exact branches hev bs h.2
      | loop tok condition bodyTok body =>
        have hnode := h
        simp only [Node.isStatement, Bool.and_eq_true] at h
        refine bind check fun _ _ => bind (hev.expr h.1.1) fun v _ => ?_
        split
        · exact bind (block hev body h.2) fun _ _ => hev.statement _ hnode
        · exact pure trivial
      | ret tok value =>
        rw [Node.isStatement] at h
        exact hev.optional h
      | select tok subject as =>
        simp only [Node.isStatement, Node.isExpr, Bool.and_eq_true] at h
        exact bind (hev.expr h.1.1) fun v _ => arms hev v as h.2

/-- A well-formed program gives a sound value. -/
theorem statements (echo : Bool) (hev : Evaluator ev) (result : Value) (ns : List Node)
    (hresult : result.Sound) (h : Node.areStatements ns = true) :
    Safe (statements echo ev result ns) Value.Sound := by
  fun_induction Dynamic.statements echo ev result ns with
  | case1 => exact pure hresult
  | case2 result tok value rest =>
    rw [Node.areStatements, Bool.and_eq_true, Node.isStatement] at h
    exact hev.optional h.1
  | case3 result statement rest hret ih =>
    rw [Node.areStatements, Bool.and_eq_true] at h
    refine bind (hev.statement statement h.1) fun v hv => ih v ?_ h.2
    split
    · exact hv
    · trivial

end Safe

/-! ## Sessions -/

/-- A session starts in a calm state, if its input and its output work. -/
theorem calm_start (input : Text) : (start input false none).Calm where
  sound := by
    intro b hb
    rw [start, List.mem_singleton] at hb
    have hempty : Bindings.empty.Sound := fun _ _ h => by simp [Bindings.empty] at h
    rw [hb]
    have hprint : (Value.builtin 0 "print").Sound := trivial
    have hinput : (Value.builtin 1 "input").Sound := trivial
    exact (hempty.bind "print" hprint).bind "input" hinput
  inputWorks := rfl
  outputWorks := rfl
  uncancelled := rfl

/-- The run of a well-formed tree from a calm state gives a value, stops with a fault or runs out of
fuel, and leaves the state calm. -/
theorem runTree_safe (options : Options) (fuel : Nat) {tree : Node} (htree : tree.isProgram = true)
    {st : State} (hst : st.Calm) :
    (match (runTree options fuel none tree st).1 with
      | .ok _ => True
      | .error h => h.IsFault ∨ h = .outOfFuel) ∧
    (runTree options fuel none tree st).2.Calm := by
  have hstatements : Node.areStatements (Session.statementsOf tree) = true := by
    cases tree <;> first | exact htree | simp [Node.isProgram] at htree
  have hcalm : State.Calm { st with checksLeft := none } := { hst with uncancelled := rfl }
  have h := Safe.statements options.echo (Safe.evaluator options.maxDepth fuel) .nil _ trivial
    hstatements _ hcalm
  unfold runTree
  cases hr : statements options.echo (eval options.maxDepth fuel) .nil (Session.statementsOf tree)
      { st with checksLeft := none } with
  | ok v st' =>
    rw [hr] at h
    exact ⟨trivial, h.2⟩
  | error e st' =>
    rw [hr] at h
    exact h

end Dynamic

/-- The step reads and runs a source, and is not going to be cancelled. -/
def Session.Step.ofSource (fuel : Nat) (text : Text) : Session.Step := ⟨.source text, fuel, none⟩

/-- What may come of running a source: a value, or a fault; or the fuel is used up, and this only
after the whole source was read. -/
def Session.Proper (text : Text) : Except Halt Value → Prop
  | .ok _ => True
  | .error h => h.IsFault ∨ h = .outOfFuel ∧ ∃ tree, (Parse.ofText text).outcome = .ok tree

namespace Dynamic

/-- A source that is run from a calm state gives a proper answer and leaves the state calm. -/
theorem perform_safe (options : Options) (fuel : Nat) (text : Text) {st : State} (hst : st.Calm) :
    Session.Proper text (perform options st (.ofSource fuel text)).1 ∧
      (perform options st (.ofSource fuel text)).2.Calm := by
  have hread := Parse.ofText_sound text
  unfold perform
  dsimp only [Session.Step.ofSource]
  cases hp : (Parse.ofText text).outcome with
  | error h =>
    rw [hp] at hread
    exact ⟨Or.inl hread, hst⟩
  | ok tree =>
    rw [hp] at hread
    obtain ⟨hresult, hcalm⟩ := runTree_safe options fuel hread hst
    refine ⟨?_, hcalm⟩
    dsimp only
    cases hr : (runTree options fuel none tree st).1 with
    | ok v => trivial
    | error h =>
      rw [hr] at hresult
      rcases hresult with hfault | hfuel
      · exact Or.inl hfault
      · exact Or.inr ⟨hfuel, tree, hp⟩

/-- However many sources are run from a calm state, the state stays calm. -/
theorem after_safe (options : Options) (sources : List (Nat × Text)) {st : State} (hst : st.Calm) :
    (after options st (sources.map fun s => .ofSource s.1 s.2)).Calm := by
  induction sources generalizing st with
  | nil => exact hst
  | cons source rest ih => exact ih (perform_safe options source.1 source.2 hst).2

end Dynamic

/-- Whatever sources a session was given before, with input and output that work and nobody to
cancel it, the next one gives a value or stops with a fault, if its run comes to an end. No defect
is reached: every node and operator has its meaning, numbers are read only from numbers, and every
frame and argument that is used is there. -/
theorem sources_meet_no_defect (options : Options) (input : Text) (sources : List (Nat × Text))
    (fuel : Nat) (source : Text) :
    Session.Proper source
      (((Session.start options input false none).after
        (sources.map fun s => .ofSource s.1 s.2)).perform (.ofSource fuel source)).1 := by
  obtain ⟨hoptions, hrep⟩ := Dynamic.after_agrees
    (Dynamic.represents_start options input false none) (sources.map fun s => .ofSource s.1 s.2)
  have hcalm := Dynamic.after_safe options sources (Dynamic.calm_start input)
  rw [(Dynamic.perform_agrees hrep _).1, hoptions]
  exact (Dynamic.perform_safe options fuel source hcalm).1

end Offside
