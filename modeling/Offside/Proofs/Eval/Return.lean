import Offside.Proofs.Eval.Abreast
import Offside.Proofs.Eval.Layout
import Offside.Proofs.Tree.Pruned

/-!
# A return ends its own statement list and nothing else

A tree and the pruned tree do the same, on machines that are twins but for functions with pruned
bodies (`return_ends_its_own_list`). What is pruned away is never reached, since a `return` ends its
list; and that a `return` goes from the bodies of loops and branches is never noticed, since it ends
nothing else. Functions keep their bodies, which are run later and perhaps by another program, so
the machines that the two runs leave differ in that some functions of the second one have pruned
bodies.

A `return` in the body of a loop or of a branch may give a `return`, in trees that were put together
by hand. There the pruned tree takes one unit of fuel less, so the runs are compared with one of
them in the lead: the original one is at least as far as the pruned one once it has twice the fuel.
-/

set_option autoImplicit false

namespace Offside

/-- The computation that follows has the fuel to keep up with the one in the lead. -/
def Lead.Suffices : Lead → (fuel fuel' : Nat) → Prop
  | first, fuel, fuel' => fuel ≤ fuel'
  | second, fuel, fuel' => 2 * fuel' ≤ fuel

/-- Every identity goes with itself. -/
def Pairing.self : Pairing where
  pairs a b := b = a
  eq_right := by
    rintro a b b' rfl rfl
    rfl
  eq_left := by
    rintro a a' b rfl rfl
    rfl

/-- One run leads. Both sides give out the same identities, each of which goes with itself. -/
def Pace.led (lead : Lead) : Pace where
  lead := some lead
  fits ρ next next' := ρ = .self ∧ next' = next
  fresh := by
    rintro ρ next next' ⟨rfl, rfl⟩
    exact ⟨.self, .refl _, rfl, rfl, rfl⟩

namespace Likeness

/-- The machines differ in the bodies of functions and in the journal alone. -/
structure Twins (L : Likeness) (m m' : Machine) : Prop where
  scopes : L.Arenas .self m.scopes m'.scopes
  depth : m'.depth = m.depth
  input : m'.input = m.input
  inputBroken : m'.inputBroken = m.inputBroken
  output : m'.output = m.output
  writesLeft : m'.writesLeft = m.writesLeft
  checksLeft : m'.checksLeft = m.checksLeft
  nextId : m'.nextId = m.nextId

/-- Twins are level where one run leads. -/
theorem Twins.level {L : Likeness} {m m' : Machine} (h : L.Twins m m') (lead : Lead) :
    L.Level (.led lead) .self m m' :=
  { h with fits := ⟨rfl, h.nextId⟩ }

/-- Where one run leads, level machines are twins, since the pairing cannot have grown. -/
theorem Level.twins {L : Likeness} {lead : Lead} {ρ : Pairing} {m m' : Machine}
    (h : L.Level (.led lead) ρ m m') : ρ = .self ∧ L.Twins m m' := by
  obtain ⟨rfl, hnext⟩ := h.fits
  exact ⟨rfl, { h with nextId := hnext }⟩

/-- Bodies may be pruned. -/
def pruning : Likeness where
  bodies body body' := body' = body ∨ body' = Node.prunedBlock body
  halts := Eq
  refl _ := rfl

/-- What stops at a token is blamed on that token on both sides. -/
theorem pruning_blames (tok : Token) : pruning.Blames tok tok where
  tooDeep _ _ := rfl
  missingArguments _ _ _ := rfl
  notCallable _ _ := rfl
  operandKinds _ _ _ := rfl
  divisionByZero := rfl

/-- Every value goes with itself, whatever functions it holds. -/
theorem Values.self_refl (v : Value) : pruning.Values .self v v := by
  cases v with
  | nil => exact .nil
  | int n => exact .int n
  | float x => exact .float x
  | string t => exact .string t
  | bool b => exact .bool b
  | function f => exact .function f.name f.params rfl (Or.inl rfl)
  | builtin id name => exact .builtin name rfl

/-- Every machine is its own twin. -/
theorem Twins.refl (m : Machine) : pruning.Twins m m := by
  have hbound : ∀ o : Option Value, Option.Rel (pruning.Values .self) o o := by
    intro o
    cases o with
    | none => exact .none
    | some v => exact .some (.self_refl v)
  have hframes : ∀ o : Option Frame, Option.Rel (pruning.Frames .self) o o := by
    intro o
    cases o with
    | none => exact .none
    | some f => exact .some ⟨rfl, fun name => hbound (f.get? name)⟩
  exact ⟨⟨rfl, fun i => hframes m.scopes.frames[i]?⟩, rfl, rfl, rfl, rfl, rfl, rfl, rfl⟩

variable {lead : Lead}

namespace Abreast

/-! ## The forms of nodes -/

section Forms

variable {ev ev' : Node → Run Value}
  (hev : ∀ ρ on n, pruning.Abreast (.led lead) ρ pruning.Values (ev n) (ev' (n.cut on)))
include hev

/-- Arguments and what is left of them give values that go with each other. -/
theorem runArgs (ρ : Pairing) (on : Bool) (args : List Node) :
    pruning.Abreast (.led lead) ρ (fun ρ => List.Forall₂ (pruning.Values ρ))
      (Eval.runArgs ev args) (Eval.runArgs ev' (Node.allCut on args)) := by
  induction args generalizing ρ with
  | nil => cases on <;> exact pure fun _ => .nil
  | cons arg rest ih =>
    have harg := hev ρ on arg
    have hcons : Node.allCut on (arg :: rest) = arg.cut on :: Node.allCut on rest := by
      cases on <;> rfl
    rw [hcons]
    exact cons harg (ih _)

/-- A list that stands for a value comes to its `return`, if it has one, whether the statements
behind it are there or not. -/
theorem runBlock (ρ : Pairing) (on : Bool) (statements : List Node) :
    pruning.Abreast (.led lead) ρ (fun ρ => Option.Rel (pruning.Values ρ))
      (Eval.runBlock ev statements) (Eval.runBlock ev' (Node.listCut .ret on statements)) := by
  fun_induction Eval.runBlock ev statements generalizing ρ with
  | case1 => cases on <;> exact pure fun _ => .none
  | case2 tok value rest =>
    have hvalue := hev ρ on value
    cases on <;> exact bind hvalue fun _ hv => pure fun hρ => .some (hv.mono hρ)
  | case3 statement rest hne ih =>
    rw [Node.listCut_cons hne, Eval.runBlock]
    · exact bind (hev _ on statement) fun _ _ => ih _
    · exact Node.cut_ne_ret hne on

/-- Values that go with each other choose the same arm. -/
theorem runArms {ρ : Pairing} {subject subject' : Value}
    (hsubject : pruning.Values ρ subject subject') (on : Bool) (arms : Arms) :
    pruning.Abreast (.led lead) ρ pruning.Values (Eval.runArms ev subject arms)
      (Eval.runArms ev' subject' (arms.cut on)) := by
  fun_induction Eval.runArms ev subject arms generalizing ρ with
  | case1 => cases on <;> exact pure_nil
  | case2 tok result rest =>
    have hresult := hev ρ on result
    cases on <;> exact hresult
  | case3 tok pattern result rest ih =>
    have hcut : (Arms.pattern tok pattern result rest).cut on =
        .pattern tok (pattern.cut on) (result.cut on) (rest.cut on) := by
      cases on <;> rfl
    rw [hcut]
    refine bind (hev _ on pattern) fun hρ hv => ?_
    rw [Values.equal (hsubject.mono hρ) hv]
    split
    · exact hev _ on result
    · exact ih (hsubject.mono hρ)

/-- Programs and what is left of them give values that go with each other. -/
theorem runStatements (echo on : Bool) {ρ : Pairing} {result result' : Value}
    (hresult : pruning.Values ρ result result') (statements : List Node) :
    pruning.Abreast (.led lead) ρ pruning.Values (Session.runStatements echo ev result statements)
      (Session.runStatements echo ev' result' (Node.listCut .ret on statements)) := by
  fun_induction Session.runStatements echo ev result statements generalizing ρ result' with
  | case1 result =>
    cases on <;> exact bind (log _ _) fun hρ _ => pure_value (hresult.mono hρ)
  | case2 result tok value rest =>
    have hvalue := hev ρ on value
    cases on <;> exact hvalue
  | case3 result statement rest hne ih =>
    rw [Node.listCut_cons hne, Session.runStatements]
    · refine bind (hev _ on statement) fun _ hv => ?_
      rw [Node.isExpression_cut]
      apply ih
      split
      · exact hv
      · exact .nil
    · exact Node.cut_ne_ret hne on

variable (hret : ∀ ρ tok n,
  pruning.Abreast (.led lead) ρ pruning.Values (ev (.ret tok n)) (ev' n.pruned))
include hret

/-- What a body gives is dropped, so that its `return` does what its value does as a statement. Only
where the value is a `return` itself is it the value of that which is evaluated. -/
theorem runDropped (ρ : Pairing) (on : Bool) (statements : List Node) :
    pruning.Abreast (.led lead) ρ Any (Eval.runBlock ev statements)
      (Eval.runBlock ev' (Node.listCut (fun _ value => value) on statements)) := by
  fun_induction Eval.runBlock ev statements generalizing ρ with
  | case1 => cases on <;> exact pure fun _ => trivial
  | case2 tok value rest =>
    cases on with
    | false => exact bind (hev ρ false value) fun _ _ => pure fun _ => trivial
    | true =>
      have hvalue := hev ρ true value
      cases value with
      | ret tok' value' => exact bind (hret ρ tok' value') fun _ _ => pure fun _ => trivial
      | _ => exact bind hvalue fun _ _ => pure fun _ => trivial
  | case3 statement rest hne ih =>
    rw [Node.listCut_cons hne, Eval.runBlock]
    · exact bind (hev _ on statement) fun _ _ => ih _
    · exact Node.cut_ne_ret hne on

/-- Conditions that are abreast choose the same branch, whose value is dropped. -/
theorem runBranches (ρ : Pairing) (on : Bool) (branches : Branches) :
    pruning.Abreast (.led lead) ρ pruning.Values (Eval.runBranches ev branches)
      (Eval.runBranches ev' (branches.cut on)) := by
  fun_induction Eval.runBranches ev branches generalizing ρ with
  | case1 => cases on <;> exact pure_nil
  | case2 tok body =>
    have hbody := runDropped hev hret ρ on body
    cases on <;> exact bind hbody fun _ _ => pure_nil
  | case3 condition tok body rest ih =>
    have hcut : (Branches.guarded condition tok body rest).cut on =
        .guarded (condition.cut on) tok (Node.listCut (fun _ value => value) on body)
          (rest.cut on) := by
      cases on <;> rfl
    rw [hcut]
    refine bind (hev _ on condition) fun _ hv => ?_
    rw [hv.truthy]
    split
    · exact bind (runDropped hev hret _ on body) fun _ _ => pure_nil
    · exact ih _

end Forms

section Nodes

variable (maxDepth : Int) {ev ev' : Evaluator} {slot : Nat}
  (hkeeps : ∀ slot node, Run.Keeps (Restores slot) (ev slot node))
  (hkeeps' : ∀ slot node, Run.Keeps (Restores slot) (ev' slot node))
  (hev : ∀ ρ slot on n,
    pruning.Abreast (.led lead) ρ pruning.Values (ev slot n) (ev' slot (n.cut on)))
  (hret : ∀ ρ slot tok n,
    pruning.Abreast (.led lead) ρ pruning.Values (ev slot (.ret tok n)) (ev' slot n.pruned))
include hkeeps hkeeps' hev hret

/-- A node and what is left of it do the same. -/
theorem step (ρ : Pairing) (on : Bool) (n : Node) :
    pruning.Abreast (.led lead) ρ pruning.Values (Eval.step maxDepth ev slot n)
      (Eval.step maxDepth ev' slot (n.cut on)) := by
  cases n with
  | missing => cases on <;> exact throw rfl
  | block tok statements =>
    have hblock := runBlock (fun ρ => hev ρ slot) ρ on statements
    cases on <;> exact bind hblock fun _ hv => pure_value (.option_getD hv)
  | declaration tok name value =>
    have hvalue := hev ρ slot on value
    cases on <;> exact bind hvalue fun _ hv => bind (declare slot name hv) fun _ _ => pure_nil
  | assignment tok name value =>
    have hvalue := hev ρ slot on value
    cases on <;> exact bind hvalue fun _ hv => bind (assign slot name hv) fun _ _ => pure_nil
  | reference tok name => cases on <;> exact lookup slot name
  | integer tok value => cases on <;> exact pure_value (.int value)
  | float tok value => cases on <;> exact pure_value (.float value)
  | string tok value => cases on <;> exact pure_value (.string value)
  | boolean tok value => cases on <;> exact pure_value (.bool value)
  | nil tok => cases on <;> exact pure_nil
  | unary tok op operand =>
    have hoperand := hev ρ slot on operand
    cases on <;> exact bind hoperand fun _ hv => lift (.unary (pruning_blames tok) op hv)
  | binary tok op left right =>
    have hleft := hev ρ slot on left
    have hright := hev ρ slot on right
    cases on <;> exact bind hleft fun hρ hl => bind (hright.mono hρ) fun hρ' hr =>
      lift (.binary (pruning_blames tok) op (hl.mono hρ') hr)
  | definition tok name params bodyTok body =>
    cases on with
    | false =>
      refine bind freshId fun _ hid => ?_
      exact bind (declare slot name (.function name params hid (Or.inl rfl))) fun _ _ => pure_nil
    | true =>
      refine bind freshId fun _ hid => ?_
      exact bind (declare slot name (.function name params hid (Or.inr rfl))) fun _ _ => pure_nil
  | call tok name args =>
    have hbody : ∀ {ρ frame body body'}, pruning.bodies body body' →
        pruning.Abreast (.led lead) ρ (fun ρ => Option.Rel (pruning.Values ρ))
          (Eval.runBlock (ev frame) body) (Eval.runBlock (ev' frame) body') := by
      -- a stored body was cut or not when its definition ran, whatever is asked of this call
      rintro ρ frame body body' (rfl | rfl)
      · exact runBlock (fun ρ => hev ρ frame) ρ false _
      · exact runBlock (fun ρ => hev ρ frame) ρ true _
    have hcall : pruning.Abreast (.led lead) ρ pruning.Values
        (Eval.call maxDepth ev slot tok name args)
        (Eval.call maxDepth ev' slot tok name (Node.allCut on args)) :=
      call (pruning_blames tok) hkeeps hkeeps' hbody name (Node.length_allCut on args)
        (runArgs (fun ρ => hev ρ slot) _ on args)
    cases on <;> exact hcall
  | conditional tok branches =>
    have hbranches := runBranches (fun ρ => hev ρ slot) (fun ρ => hret ρ slot) ρ on branches
    cases on <;> exact hbranches
  | loop tok condition bodyTok body =>
    have hcondition := hev ρ slot on condition
    have hturn : ∀ {ρ v v'}, pruning.Values ρ v v' →
        pruning.Abreast (.led lead) ρ pruning.Values
          (if v.truthy then do
            let _ ← Eval.runBlock (ev slot) body
            ev slot (.loop tok condition bodyTok body)
          else Pure.pure .nil)
          (if v'.truthy then do
            let _ ← Eval.runBlock (ev' slot) (Node.listCut (fun _ value => value) on body)
            ev' slot ((Node.loop tok condition bodyTok body).cut on)
          else Pure.pure .nil) := by
      intro ρ v v' hv
      rw [hv.truthy]
      split
      · exact bind (runDropped (fun ρ => hev ρ slot) (fun ρ => hret ρ slot) _ on body) fun _ _ =>
          hev _ slot on (.loop tok condition bodyTok body)
      · exact pure_nil
    cases on <;> exact bind check fun hρ _ => bind (hcondition.mono hρ) fun _ => hturn
  | ret tok value =>
    have hvalue := hev ρ slot on value
    cases on <;> exact hvalue
  | select tok subject arms =>
    have hsubject := hev ρ slot on subject
    have harms : ∀ {ρ v v'}, pruning.Values ρ v v' →
        pruning.Abreast (.led lead) ρ pruning.Values (Eval.runArms (ev slot) v arms)
          (Eval.runArms (ev' slot) v' (arms.cut on)) :=
      fun hv => runArms (fun ρ => hev ρ slot) hv on arms
    cases on <;> exact bind hsubject fun _ => harms

end Nodes

/-! ## Evaluation -/

/-- With the original tree in the lead, the same fuel is enough for what is left of it. -/
theorem eval_first (maxDepth : Int) {fuel fuel' : Nat} (hle : fuel ≤ fuel') (ρ : Pairing)
    (slot : Nat) (on : Bool) (n : Node) :
    pruning.Abreast (.led .first) ρ pruning.Values (Offside.eval maxDepth fuel slot n)
      (Offside.eval maxDepth fuel' slot (n.cut on)) := by
  induction fuel using Nat.strongRecOn generalizing ρ fuel' slot on n with
  | ind fuel ih =>
    cases fuel with
    | zero => exact fun _ _ _ _ _ => .first rfl
    | succ fuel =>
      obtain ⟨rest, rfl⟩ : ∃ rest, fuel' = rest + 1 := ⟨fuel' - 1, by omega⟩
      have hret : ∀ ρ slot tok n, pruning.Abreast (.led .first) ρ pruning.Values
          (Offside.eval maxDepth fuel slot (.ret tok n))
          (Offside.eval maxDepth rest slot n.pruned) := by
        intro ρ slot tok n
        -- passing through the `return` costs the original one fuel, hence the strong induction
        cases fuel with
        | zero => exact fun _ _ _ _ _ => .first rfl
        | succ fuel => exact ih fuel (by omega) (by omega) ρ slot true n
      exact step maxDepth (Restores.kept.eval maxDepth fuel) (Restores.kept.eval maxDepth rest)
        (fun ρ slot on n => ih fuel (by omega) (by omega) ρ slot on n) hret ρ on n

/-- With the other tree in the lead, twice the fuel is enough for the original one: each nested task
may have a `return` more to pass through. -/
theorem eval_second (maxDepth : Int) {fuel fuel' : Nat} (hle : 2 * fuel' ≤ fuel) (ρ : Pairing)
    (slot : Nat) (on : Bool) (n : Node) :
    pruning.Abreast (.led .second) ρ pruning.Values (Offside.eval maxDepth fuel slot n)
      (Offside.eval maxDepth fuel' slot (n.cut on)) := by
  induction fuel' generalizing ρ fuel slot on n with
  | zero => exact fun _ _ _ _ _ => .second rfl
  | succ fuel' ih =>
    obtain ⟨rest, rfl⟩ : ∃ rest, fuel = rest + 2 := ⟨fuel - 2, by omega⟩
    exact step maxDepth (Restores.kept.eval maxDepth (rest + 1))
      (Restores.kept.eval maxDepth fuel') (fun ρ slot on n => ih (by omega) ρ slot on n)
      (fun ρ slot _ n => ih (by omega) ρ slot true n) ρ on n

end Abreast

/-- A program and what is left of it are abreast, if the one that follows can keep up. -/
theorem Abreast.runProgram (options : Options) {fuel fuel' : Nat}
    (hfuel : lead.Suffices fuel fuel') (ρ : Pairing) (on : Bool) (program : List Node) :
    pruning.Abreast (.led lead) ρ pruning.Values (Session.runProgram options fuel program)
      (Session.runProgram options fuel' (Node.listCut .ret on program)) := by
  have hev : ∀ ρ on n, pruning.Abreast (.led lead) ρ pruning.Values
      (Offside.eval options.maxDepth fuel 0 n)
      (Offside.eval options.maxDepth fuel' 0 (n.cut on)) := by
    intro ρ
    cases lead with
    | first => exact eval_first options.maxDepth hfuel ρ 0
    | second => exact eval_second options.maxDepth hfuel ρ 0
  exact bind (log _ _) fun _ _ => runStatements hev options.echo on .nil program

/-! ## Sessions -/

/-- Sessions with the same options, on machines that are twins. -/
structure TwinSessions (L : Likeness) (s s' : Session) : Prop where
  options : s'.options = s.options
  machine : L.Twins s.machine s'.machine

/-- Runs that came to answers that go with each other, and left such sessions. -/
structure TwinOutcomes (L : Likeness) (o o' : Except Halt Value × Session) : Prop where
  answers : L.Answers .self o.1 o'.1
  sessions : L.TwinSessions o.2 o'.2

/-- Twin outcomes ran out of fuel on both sides or on neither. -/
theorem TwinOutcomes.outOfFuel_iff {o o' : Except Halt Value × Session}
    (h : pruning.TwinOutcomes o o') : o'.1 = .error .outOfFuel ↔ o.1 = .error .outOfFuel := by
  have hanswers := h.answers
  generalize o.1 = a at hanswers
  generalize o'.1 = a' at hanswers
  cases hanswers with
  | ok hv => simp
  | error hh =>
    cases hh
    rfl

/-- Twin outcomes give values of the same text, or none on both sides. -/
theorem TwinOutcomes.text_eq {o o' : Except Halt Value × Session} (h : pruning.TwinOutcomes o o') :
    o'.1.toOption.map Value.text = o.1.toOption.map Value.text := by
  have hanswers := h.answers
  generalize o.1 = a at hanswers
  generalize o'.1 = a' at hanswers
  cases hanswers with
  | ok hv => exact congrArg some hv.text
  | error hh => rfl

/-- Unless the run in the lead ran out of fuel, both runs came to the same. -/
theorem TwinSessions.runTree {lead : Lead} {s s' : Session} (h : pruning.TwinSessions s s')
    {fuel fuel' : Nat} (hfuel : lead.Suffices fuel fuel') (checks : Option Nat) (on : Bool)
    (tree : Node) :
    lead = .first ∧ (s.runTree fuel checks tree).1 = .error .outOfFuel ∨
      lead = .second ∧ (s'.runTree fuel' checks (tree.cut on)).1 = .error .outOfFuel ∨
      pruning.TwinOutcomes (s.runTree fuel checks tree)
        (s'.runTree fuel' checks (tree.cut on)) := by
  have hstart : pruning.Twins { s.machine with checksLeft := checks }
      { s'.machine with checksLeft := checks } := { h.machine with checksLeft := rfl }
  have hprogram := Abreast.runProgram s.options hfuel .self on (Session.statementsOf tree)
  rw [← Session.statementsOf_cut] at hprogram
  rcases Abreast.runTree h.options (hstart.level lead) hprogram with hout | hout | hmet
  · exact Or.inl ⟨Option.some.inj hout.1, hout.2⟩
  · exact Or.inr (Or.inl ⟨Option.some.inj hout.1, hout.2⟩)
  · obtain ⟨ρ', -, hanswers, hlevel⟩ := hmet
    obtain ⟨rfl, htwins⟩ := hlevel.twins
    have hoptions : (s'.runTree fuel' checks (tree.cut on)).2.options =
        (s.runTree fuel checks tree).2.options := by
      rw [Session.options_runTree, Session.options_runTree, h.options]
    exact Or.inr (Or.inr ⟨hanswers, hoptions, htwins⟩)

/-- If the run in the lead came to an end, both runs came to the same. -/
theorem TwinSessions.runsTo {lead : Lead} {s s' : Session} (h : pruning.TwinSessions s s')
    {fuel fuel' : Nat} (hfuel : lead.Suffices fuel fuel') (checks : Option Nat) (on : Bool)
    (tree : Node)
    (hfirst : lead = .first → (s.runTree fuel checks tree).1 ≠ .error .outOfFuel)
    (hsecond : lead = .second → (s'.runTree fuel' checks (tree.cut on)).1 ≠ .error .outOfFuel) :
    s.RunsTo checks tree (s.runTree fuel checks tree) ∧
      s'.RunsTo checks (tree.cut on) (s'.runTree fuel' checks (tree.cut on)) ∧
      pruning.TwinOutcomes (s.runTree fuel checks tree)
        (s'.runTree fuel' checks (tree.cut on)) := by
  rcases h.runTree hfuel checks on tree with ⟨hlead, hout⟩ | ⟨hlead, hout⟩ | htwins
  · exact absurd hout (hfirst hlead)
  · exact absurd hout (hsecond hlead)
  · have hended : (s.runTree fuel checks tree).1 ≠ .error .outOfFuel := by
      cases lead with
      | first => exact hfirst rfl
      | second => exact mt htwins.outOfFuel_iff.mpr (hsecond rfl)
    have hended' := mt htwins.outOfFuel_iff.mp hended
    exact ⟨Session.runsTo_of_fuel rfl hended, Session.runsTo_of_fuel rfl hended', htwins⟩

end Likeness

/-- A `return` ends its own statement list and nothing else. Let a tree be pruned: in every
statement list of it, at any depth, what stands behind the first `return` is taken away, and in the
bodies of loops and branches the value of that `return` is put in its place. Then the tree and the
pruned tree do the same. If one of the runs comes to an end the other one does; they write and read
the same, ask as often whether they are cancelled, give the same value or stop for the same reason,
and leave sessions that differ in that functions may have pruned bodies. This holds from every
session, and also if the pruned tree is run in a session that differs so from the other one already,
as it does after an earlier program; and a later program does the same if it is not pruned. -/
theorem return_ends_its_own_list :
    (∀ s : Session, Likeness.pruning.TwinSessions s s) ∧
    ∀ (s s' : Session) (checks : Option Nat) (tree tree' : Node),
      Likeness.pruning.TwinSessions s s' → tree' = tree ∨ tree' = tree.pruned →
      (∀ outcome, s.RunsTo checks tree outcome →
        ∃ outcome', s'.RunsTo checks tree' outcome' ∧
          Likeness.pruning.TwinOutcomes outcome outcome') ∧
      ∀ outcome', s'.RunsTo checks tree' outcome' →
        ∃ outcome, s.RunsTo checks tree outcome ∧
          Likeness.pruning.TwinOutcomes outcome outcome' := by
  refine ⟨fun s => ⟨rfl, .refl s.machine⟩, fun s s' checks tree tree' hs htree => ?_⟩
  obtain ⟨on, rfl⟩ : ∃ on, tree' = tree.cut on := by
    rcases htree with rfl | rfl
    · exact ⟨false, rfl⟩
    · exact ⟨true, rfl⟩
  constructor
  · rintro outcome ⟨hended, fuel, hfuel⟩
    obtain rfl := hfuel fuel (Nat.le_refl fuel)
    have hsame : Lead.first.Suffices fuel fuel := Nat.le_refl fuel
    obtain ⟨-, hrun', htwins⟩ := hs.runsTo hsame checks on tree (fun _ => hended) (by simp)
    exact ⟨_, hrun', htwins⟩
  · rintro outcome' ⟨hended, fuel, hfuel⟩
    obtain rfl := hfuel fuel (Nat.le_refl fuel)
    have htwice : Lead.second.Suffices (2 * fuel) fuel := Nat.le_refl (2 * fuel)
    obtain ⟨hrun, -, htwins⟩ := hs.runsTo htwice checks on tree (by simp) (fun _ => hended)
    exact ⟨_, hrun, htwins⟩

/-- A function prints, passes a `return` in a branch, returns, and would print once more. It is
defined as it is and pruned, and then called by a later program: both times it prints once and gives
what its own `return` gives. -/
theorem return_ends_its_own_list_later :
    let print := fun letter => Node.call .origin "print" [.string .origin [letter]]
    let choice := fun body =>
      Node.conditional .origin (.guarded (.boolean .origin true) .origin body .done)
    let define := Node.definition .origin "f" [] .origin
      [print 97, choice [.ret .origin (.integer .origin 2), print 98],
        .ret .origin (.integer .origin 1), print 99]
    let pruned := Node.definition .origin "f" [] .origin
      [print 97, choice [.integer .origin 2], .ret .origin (.integer .origin 1)]
    let use := Node.ret .origin (.call .origin "f" [])
    let start := Session.start ⟨false, 10⟩ [] false none
    define.pruned = pruned ∧
    ∃ o o', start.RunsTo none define o ∧ start.RunsTo none pruned o' ∧
      ∃ u u', o.2.RunsTo none use u ∧ o'.2.RunsTo none use u' ∧
        u.1.toOption.map Value.text = some [49] ∧ u'.1.toOption.map Value.text = some [49] ∧
        u.2.machine.written = [97, 10] ∧ u'.2.machine.written = [97, 10] := by
  intro print choice define pruned use start
  have hdefined : start.RunsTo none define (start.runTree 9 none define) :=
    Session.runsTo_of_fuel rfl (Session.ne_error_of_stop?_eq_none (by decide +kernel) _)
  obtain ⟨o', hpruned, hsessions⟩ := (return_ends_its_own_list.2 start start none define pruned
    (return_ends_its_own_list.1 start) (Or.inr rfl)).1 _ hdefined
  have hused : (start.runTree 9 none define).2.RunsTo none use
      ((start.runTree 9 none define).2.runTree 9 none use) :=
    Session.runsTo_of_fuel rfl (Session.ne_error_of_stop?_eq_none (by decide +kernel) _)
  obtain ⟨u', hused', htwins⟩ := (return_ends_its_own_list.2 _ o'.2 none use use hsessions.sessions
    (Or.inl rfl)).1 _ hused
  have hvalue : ((start.runTree 9 none define).2.runTree 9 none use).1.toOption.map Value.text =
      some [49] := by decide +kernel
  have hwritten : ((start.runTree 9 none define).2.runTree 9 none use).2.machine.written =
      [97, 10] := by decide +kernel
  refine ⟨rfl, _, o', hdefined, hpruned, _, u', hused, hused', hvalue, ?_, hwritten, ?_⟩
  · rw [← hvalue, htwins.text_eq]
  · rw [← hwritten, Machine.written, Machine.written, htwins.sessions.machine.output]

end Offside
