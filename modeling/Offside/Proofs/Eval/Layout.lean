import Offside.Proofs.Eval.Abreast
import Offside.Proofs.Eval.Limit
import Offside.Proofs.Tree.Moved

/-!
# Layout has no effect but on reported places

A tree keeps the places of its tokens, and functions keep trees, but all that a run does with a
place is to report it. So trees that are the same but for places, run on machines that are alike but
for places in the bodies of functions, do the same: they come to an end or not, write and read the
same, ask as often whether they are cancelled, leave machines that are alike again, and give values
that go with each other or stop for the same reason (`layout_changes_only_places`). Functions are
compared by identity, and new functions get new identities on both sides, so the pairing of
identities grows in step with the runs.
-/

set_option autoImplicit false

namespace Offside

/-- Neither run leads. The pairing grows: what is given out anew on one side is paired with what is
given out on the other. -/
def Pace.inStep : Pace where
  lead := none
  fits := Pairing.Given
  fresh {ρ _ _} h := ⟨ρ.add h, ρ.within_add h, Or.inr ⟨rfl, rfl⟩, ρ.given_add h⟩

namespace Likeness

/-- Bodies and stops may differ in places. -/
def layout : Likeness where
  bodies := Node.AllSameButPlaces
  halts := Halt.SameButPlaces
  refl _ := rfl

/-- Machines that go with each other. -/
structure Machines (L : Likeness) (ρ : Pairing) (m m' : Machine) : Prop where
  scopes : L.Arenas ρ m.scopes m'.scopes
  depth : m'.depth = m.depth
  input : m'.input = m.input
  inputBroken : m'.inputBroken = m.inputBroken
  output : m'.output = m.output
  writesLeft : m'.writesLeft = m.writesLeft
  checksLeft : m'.checksLeft = m.checksLeft
  given : ρ.Given m.nextId m'.nextId

/-- Results that go with each other, on machines that do; the pairing may have grown. -/
def Results {α β : Type} (L : Likeness) (A : Pairing → α → β → Prop) (ρ : Pairing) :
    EStateM.Result Halt Machine α → EStateM.Result Halt Machine β → Prop
  | .ok a m, .ok b m' => ∃ ρ', ρ.Within ρ' ∧ A ρ' a b ∧ L.Machines ρ' m m'
  | .error h m, .error h' m' => L.halts h h' ∧ ∃ ρ', ρ.Within ρ' ∧ L.Machines ρ' m m'
  | .ok _ _, .error _ _ => False
  | .error _ _, .ok _ _ => False

variable {ρ : Pairing}

/-- In step, machines that go with each other are level. -/
theorem level_inStep_iff {L : Likeness} {m m' : Machine} :
    L.Level .inStep ρ m m' ↔ L.Machines ρ m m' :=
  ⟨fun h => { h with given := h.fits }, fun h => { h with fits := h.given }⟩

/-- Where no run leads, results that meet go with each other. -/
theorem Meets.results {L : Likeness} {α β : Type} {A : Pairing → α → β → Prop}
    {r : EStateM.Result Halt Machine α} {r' : EStateM.Result Halt Machine β}
    (h : L.Meets .inStep A ρ r r') : L.Results A ρ r r' := by
  cases h with
  | ok hρ hab hm => exact ⟨_, hρ, hab, level_inStep_iff.mp hm⟩
  | error hρ hh hm => exact ⟨hh, _, hρ, level_inStep_iff.mp hm⟩
  | first hlead => exact absurd hlead (by simp [Pace.inStep])
  | second hlead => exact absurd hlead (by simp [Pace.inStep])

/-- All that the stops at two tokens can differ in are places. -/
theorem blames (tok tok' : Token) : layout.Blames tok tok' where
  tooDeep _ _ := rfl
  missingArguments _ _ _ := rfl
  notCallable _ _ := rfl
  operandKinds _ _ _ := rfl
  divisionByZero := rfl

/-! ## The forms of nodes -/

section Lists

variable {n : Node} {ns ns' : List Node}

/-- A list that is the same but for places as one with a head has a head too. -/
theorem exists_cons (h : Node.AllSameButPlaces (n :: ns) ns') :
    ∃ n' rest', ns' = n' :: rest' ∧ n.SameButPlaces n' ∧ Node.AllSameButPlaces ns rest' := by
  cases ns' with
  | nil => simp [Node.AllSameButPlaces] at h
  | cons n' rest' =>
    simp only [Node.AllSameButPlaces, Node.allMoved, List.cons.injEq] at h
    exact ⟨n', rest', rfl, h⟩

/-- Only the empty list is the same but for places as the empty list. -/
theorem eq_nil (h : Node.AllSameButPlaces [] ns') : ns' = [] := by
  cases ns' with
  | nil => rfl
  | cons n' rest' => simp [Node.AllSameButPlaces] at h

/-- Lists that are the same but for places are equally long. -/
theorem length_eq (h : Node.AllSameButPlaces ns ns') : ns'.length = ns.length := by
  rw [← Node.length_allMoved .disregarded ns', h, Node.length_allMoved]

/-- Only a `return` is the same but for places as a `return`. -/
theorem exists_ret {tok : Token} {value n' : Node} (h : (Node.ret tok value).SameButPlaces n') :
    ∃ tok' value', n' = .ret tok' value' ∧ value.SameButPlaces value' := by
  cases n' with
  | ret tok' value' =>
    simp only [Node.SameButPlaces, Node.moved, Node.ret.injEq] at h
    exact ⟨tok', value', rfl, h.2⟩
  | _ => simp [Node.SameButPlaces] at h

/-- No node that is the same but for places as one that is no `return` is a `return`. -/
theorem ne_ret {n' : Node} (h : n.SameButPlaces n') (hn : ∀ tok value, n = .ret tok value → False)
    (tok : Token) (value : Node) (hret : n' = .ret tok value) : False := by
  have hsame : (Node.ret tok value).SameButPlaces n := hret ▸ h.symm
  obtain ⟨tok', value', heq, -⟩ := exists_ret hsame
  exact hn tok' value' heq

end Lists

section Forms

variable {ev ev' : Node → Run Value}
  (hev : ∀ {ρ n n'}, n.SameButPlaces n' → layout.Abreast .inStep ρ layout.Values (ev n) (ev' n'))
include hev

/-- Statement lists that are the same but for places come to their `return` abreast. -/
theorem runBlock {ns ns' : List Node} (h : Node.AllSameButPlaces ns ns') :
    layout.Abreast .inStep ρ (fun ρ => Option.Rel (layout.Values ρ)) (Eval.runBlock ev ns)
      (Eval.runBlock ev' ns') := by
  fun_induction Eval.runBlock ev ns generalizing ρ ns' with
  | case1 =>
    rw [eq_nil h]
    exact .pure fun _ => .none
  | case2 tok value rest =>
    obtain ⟨n', rest', rfl, hn, -⟩ := exists_cons h
    obtain ⟨tok', value', rfl, hvalue⟩ := exists_ret hn
    exact .bind (hev hvalue) fun _ hv => .pure fun hρ => .some (hv.mono hρ)
  | case3 statement rest hne ih =>
    obtain ⟨n', rest', rfl, hn, hrest⟩ := exists_cons h
    rw [Eval.runBlock]
    · exact .bind (hev hn) fun _ _ => ih hrest
    · exact ne_ret hn hne

/-- Arguments that are the same but for places give values that go with each other. -/
theorem runArgs {ns ns' : List Node} (h : Node.AllSameButPlaces ns ns') :
    layout.Abreast .inStep ρ (fun ρ => List.Forall₂ (layout.Values ρ)) (Eval.runArgs ev ns)
      (Eval.runArgs ev' ns') := by
  induction ns generalizing ρ ns' with
  | nil =>
    rw [eq_nil h]
    exact .pure fun _ => .nil
  | cons arg rest ih =>
    obtain ⟨arg', rest', rfl, harg, hrest⟩ := exists_cons h
    exact .cons (hev harg) (ih hrest)

/-- Branches that are the same but for places are chosen abreast. -/
theorem runBranches {bs bs' : Branches} (h : bs.SameButPlaces bs') :
    layout.Abreast .inStep ρ layout.Values (Eval.runBranches ev bs) (Eval.runBranches ev' bs') := by
  fun_induction Eval.runBranches ev bs generalizing ρ bs' with
  | case1 =>
    cases bs' with
    | done => exact .pure_nil
    | _ => simp [Branches.SameButPlaces] at h
  | case2 tok body =>
    cases bs' with
    | otherwise tok' body' =>
      simp only [Branches.SameButPlaces, Branches.moved, Branches.otherwise.injEq] at h
      exact .bind (runBlock hev h.2) fun _ _ => .pure_nil
    | _ => simp [Branches.SameButPlaces] at h
  | case3 condition tok body rest ih =>
    cases bs' with
    | guarded condition' tok' body' rest' =>
      simp only [Branches.SameButPlaces, Branches.moved, Branches.guarded.injEq] at h
      obtain ⟨hcondition, -, hbody, hrest⟩ := h
      refine .bind (hev hcondition) fun _ hv => ?_
      rw [hv.truthy]
      split
      · exact .bind (runBlock hev hbody) fun _ _ => .pure_nil
      · exact ih hrest
    | _ => simp [Branches.SameButPlaces] at h

/-- Arms that are the same but for places are chosen abreast by values that go together. -/
theorem runArms {subject subject' : Value} (hsubject : layout.Values ρ subject subject')
    {as as' : Arms} (h : as.SameButPlaces as') :
    layout.Abreast .inStep ρ layout.Values (Eval.runArms ev subject as)
      (Eval.runArms ev' subject' as') := by
  fun_induction Eval.runArms ev subject as generalizing ρ as' with
  | case1 =>
    cases as' with
    | done => exact .pure_nil
    | _ => simp [Arms.SameButPlaces] at h
  | case2 tok result rest =>
    cases as' with
    | wildcard tok' result' rest' =>
      simp only [Arms.SameButPlaces, Arms.moved, Arms.wildcard.injEq] at h
      exact hev h.2.1
    | _ => simp [Arms.SameButPlaces] at h
  | case3 tok pattern result rest ih =>
    cases as' with
    | pattern tok' pattern' result' rest' =>
      simp only [Arms.SameButPlaces, Arms.moved, Arms.pattern.injEq] at h
      obtain ⟨-, hpattern, hresult, hrest⟩ := h
      refine .bind (hev hpattern) fun hρ hv => ?_
      rw [Values.equal (hsubject.mono hρ) hv]
      split
      · exact hev hresult
      · exact ih (hsubject.mono hρ) hrest
    | _ => simp [Arms.SameButPlaces] at h

/-- Programs that are the same but for places give values that go with each other. -/
theorem runStatements (echo : Bool) {result result' : Value}
    (hresult : layout.Values ρ result result') {ns ns' : List Node}
    (h : Node.AllSameButPlaces ns ns') :
    layout.Abreast .inStep ρ layout.Values (Session.runStatements echo ev result ns)
      (Session.runStatements echo ev' result' ns') := by
  fun_induction Session.runStatements echo ev result ns generalizing ρ result' ns' with
  | case1 result =>
    rw [eq_nil h]
    exact .bind (.log _ _) fun hρ _ => .pure_value (hresult.mono hρ)
  | case2 result tok value rest =>
    obtain ⟨n', rest', rfl, hn, -⟩ := exists_cons h
    obtain ⟨tok', value', rfl, hvalue⟩ := exists_ret hn
    exact hev hvalue
  | case3 result statement rest hne ih =>
    obtain ⟨n', rest', rfl, hn, hrest⟩ := exists_cons h
    have hexpression : n'.isExpression = statement.isExpression := by
      rw [← Node.isExpression_moved .disregarded n', hn, Node.isExpression_moved]
    rw [Session.runStatements]
    · refine .bind (hev hn) fun _ hv => ?_
      rw [hexpression]
      refine ih _ ?_ hrest
      split
      · exact hv
      · exact .nil
    · exact ne_ret hn hne

end Forms

section Nodes

variable (maxDepth : Int) {ev ev' : Evaluator} {slot : Nat}
  (hkeeps : ∀ slot node, Run.Keeps (Restores slot) (ev slot node))
  (hkeeps' : ∀ slot node, Run.Keeps (Restores slot) (ev' slot node))
  (hev : ∀ {ρ slot n n'}, n.SameButPlaces n' →
    layout.Abreast .inStep ρ layout.Values (ev slot n) (ev' slot n'))
include hkeeps hkeeps' hev

/-- A node and another one of the same form do the same. Two nodes that are not of the same form are
not the same but for places. -/
theorem step {n n' : Node} (h : n.SameButPlaces n') :
    layout.Abreast .inStep ρ layout.Values (Eval.step maxDepth ev slot n)
      (Eval.step maxDepth ev' slot n') := by
  have hsame := h
  -- the other node has to be of the same form, with parts that are the same but for places; in
  -- every other case `h` compares two constructors
  cases n with
  | missing =>
    cases n' with
    | missing => exact .throw rfl
    | _ => simp [Node.SameButPlaces] at h
  | block tok statements =>
    cases n' with
    | block tok' statements' =>
      simp only [Node.SameButPlaces, Node.moved, Node.block.injEq] at h
      exact .bind (runBlock hev h.2) fun _ hv => .pure_value (.option_getD hv)
    | _ => simp [Node.SameButPlaces] at h
  | declaration tok name value =>
    cases n' with
    | declaration tok' name' value' =>
      simp only [Node.SameButPlaces, Node.moved, Node.declaration.injEq] at h
      obtain ⟨-, rfl, hvalue⟩ := h
      exact .bind (hev hvalue) fun _ hv => .bind (.declare slot _ hv) fun _ _ => .pure_nil
    | _ => simp [Node.SameButPlaces] at h
  | assignment tok name value =>
    cases n' with
    | assignment tok' name' value' =>
      simp only [Node.SameButPlaces, Node.moved, Node.assignment.injEq] at h
      obtain ⟨-, rfl, hvalue⟩ := h
      exact .bind (hev hvalue) fun _ hv => .bind (.assign slot _ hv) fun _ _ => .pure_nil
    | _ => simp [Node.SameButPlaces] at h
  | reference tok name =>
    cases n' with
    | reference tok' name' =>
      simp only [Node.SameButPlaces, Node.moved, Node.reference.injEq] at h
      obtain ⟨-, rfl⟩ := h
      exact .lookup slot _
    | _ => simp [Node.SameButPlaces] at h
  | integer tok k =>
    cases n' with
    | integer tok' k' =>
      simp only [Node.SameButPlaces, Node.moved, Node.integer.injEq] at h
      obtain ⟨-, rfl⟩ := h
      exact .pure_value (.int _)
    | _ => simp [Node.SameButPlaces] at h
  | float tok x =>
    cases n' with
    | float tok' x' =>
      simp only [Node.SameButPlaces, Node.moved, Node.float.injEq] at h
      obtain ⟨-, rfl⟩ := h
      exact .pure_value (.float _)
    | _ => simp [Node.SameButPlaces] at h
  | string tok t =>
    cases n' with
    | string tok' t' =>
      simp only [Node.SameButPlaces, Node.moved, Node.string.injEq] at h
      obtain ⟨-, rfl⟩ := h
      exact .pure_value (.string _)
    | _ => simp [Node.SameButPlaces] at h
  | boolean tok b =>
    cases n' with
    | boolean tok' b' =>
      simp only [Node.SameButPlaces, Node.moved, Node.boolean.injEq] at h
      obtain ⟨-, rfl⟩ := h
      exact .pure_value (.bool _)
    | _ => simp [Node.SameButPlaces] at h
  | nil tok =>
    cases n' with
    | nil tok' => exact .pure_nil
    | _ => simp [Node.SameButPlaces] at h
  | unary tok op operand =>
    cases n' with
    | unary tok' op' operand' =>
      simp only [Node.SameButPlaces, Node.moved, Node.unary.injEq] at h
      obtain ⟨-, rfl, hoperand⟩ := h
      exact .bind (hev hoperand) fun _ hv => .lift (.unary (blames tok tok') _ hv)
    | _ => simp [Node.SameButPlaces] at h
  | binary tok op left right =>
    cases n' with
    | binary tok' op' left' right' =>
      simp only [Node.SameButPlaces, Node.moved, Node.binary.injEq] at h
      obtain ⟨-, rfl, hleft, hright⟩ := h
      refine .bind (hev hleft) fun _ hl => .bind (hev hright) fun hρ hr => ?_
      exact .lift (.binary (blames tok tok') _ (hl.mono hρ) hr)
    | _ => simp [Node.SameButPlaces] at h
  | definition tok name params bodyTok body =>
    cases n' with
    | definition tok' name' params' bodyTok' body' =>
      simp only [Node.SameButPlaces, Node.moved, Node.definition.injEq] at h
      obtain ⟨-, rfl, rfl, -, hbody⟩ := h
      refine .bind .freshId fun _ hid => ?_
      exact .bind (.declare slot _ (.function _ _ hid hbody)) fun _ _ => .pure_nil
    | _ => simp [Node.SameButPlaces] at h
  | call tok name args =>
    cases n' with
    | call tok' name' args' =>
      simp only [Node.SameButPlaces, Node.moved, Node.call.injEq] at h
      obtain ⟨-, rfl, hargs⟩ := h
      have hbody : ∀ {ρ frame body body'}, layout.bodies body body' →
          layout.Abreast .inStep ρ (fun ρ => Option.Rel (layout.Values ρ))
            (Eval.runBlock (ev frame) body) (Eval.runBlock (ev' frame) body') :=
        fun hb => runBlock hev hb
      have hvalues : ∀ {ρ}, layout.Abreast .inStep ρ (fun ρ => List.Forall₂ (layout.Values ρ))
          (Eval.runArgs (ev slot) args) (Eval.runArgs (ev' slot) args') := runArgs hev hargs
      show layout.Abreast .inStep ρ layout.Values (Eval.call maxDepth ev slot tok name' args)
        (Eval.call maxDepth ev' slot tok' name' args')
      exact .call (blames tok tok') hkeeps hkeeps' hbody name' (length_eq hargs) hvalues
    | _ => simp [Node.SameButPlaces] at h
  | conditional tok branches =>
    cases n' with
    | conditional tok' branches' =>
      simp only [Node.SameButPlaces, Node.moved, Node.conditional.injEq] at h
      exact runBranches hev h.2
    | _ => simp [Node.SameButPlaces] at h
  | loop tok condition bodyTok body =>
    cases n' with
    | loop tok' condition' bodyTok' body' =>
      simp only [Node.SameButPlaces, Node.moved, Node.loop.injEq] at h
      obtain ⟨-, hcondition, -, hbody⟩ := h
      refine .bind .check fun _ _ => .bind (hev hcondition) fun _ hv => ?_
      rw [hv.truthy]
      split
      · exact .bind (runBlock hev hbody) fun _ _ => hev hsame
      · exact .pure_nil
    | _ => simp [Node.SameButPlaces] at h
  | ret tok value =>
    obtain ⟨tok', value', rfl, hvalue⟩ := exists_ret h
    exact hev hvalue
  | select tok subject arms =>
    cases n' with
    | select tok' subject' arms' =>
      simp only [Node.SameButPlaces, Node.moved, Node.select.injEq] at h
      exact .bind (hev h.2.1) fun _ hv => runArms hev hv h.2.2
    | _ => simp [Node.SameButPlaces] at h

end Nodes

/-- Nodes that are the same but for places are evaluated abreast, with the same fuel. -/
theorem eval (maxDepth : Int) (fuel : Nat) {slot : Nat} {n n' : Node} (h : n.SameButPlaces n') :
    layout.Abreast .inStep ρ layout.Values (eval maxDepth fuel slot n)
      (eval maxDepth fuel slot n') := by
  induction fuel generalizing ρ slot n n' with
  | zero => exact .throw rfl
  | succ fuel ih =>
    have hkeeps := Restores.kept.eval maxDepth fuel
    exact step maxDepth hkeeps hkeeps ih h

/-- The statements of a tree whose places are changed are those of the tree, changed alike. -/
theorem statementsOf_moved (f : Position → Position) (tree : Node) :
    Session.statementsOf (tree.moved f) = Node.allMoved f (Session.statementsOf tree) := by
  cases tree <;> rfl

/-- Trees that are the same but for places have such statements. -/
theorem statementsOf {tree tree' : Node} (h : tree.SameButPlaces tree') :
    Node.AllSameButPlaces (Session.statementsOf tree) (Session.statementsOf tree') := by
  unfold Node.AllSameButPlaces
  rw [← statementsOf_moved, ← statementsOf_moved, h]

/-- Programs that are the same but for places are run abreast, with the same fuel. -/
theorem runProgram (options : Options) (fuel : Nat) {ns ns' : List Node}
    (h : Node.AllSameButPlaces ns ns') :
    layout.Abreast .inStep ρ layout.Values (Session.runProgram options fuel ns)
      (Session.runProgram options fuel ns') :=
  .bind (.log _ _) fun _ _ => runStatements (eval options.maxDepth fuel) options.echo .nil h

/-- Runs with answers that go with each other, and with machines that do; the pairing may have
grown. -/
def Outcomes (L : Likeness) (ρ : Pairing) (o o' : Except Halt Value × Session) : Prop :=
  ∃ ρ', ρ.Within ρ' ∧ L.Answers ρ' o.1 o'.1 ∧ L.Machines ρ' o.2.machine o'.2.machine

/-- Runs of trees that are the same but for places come to outcomes that go with each other. -/
theorem runTree {s s' : Session} (hoptions : s'.options = s.options)
    (hmachine : layout.Machines ρ s.machine s'.machine) (fuel : Nat) (checks : Option Nat)
    {tree tree' : Node} (h : tree.SameButPlaces tree') :
    layout.Outcomes ρ (s.runTree fuel checks tree) (s'.runTree fuel checks tree') := by
  have hstart : layout.Level .inStep ρ { s.machine with checksLeft := checks }
      { s'.machine with checksLeft := checks } :=
    level_inStep_iff.mpr { hmachine with checksLeft := rfl }
  have hprogram : layout.Abreast .inStep ρ layout.Values
      (Session.runProgram s.options fuel (Session.statementsOf tree))
      (Session.runProgram s.options fuel (Session.statementsOf tree')) :=
    runProgram s.options fuel (statementsOf h)
  rcases hprogram.runTree hoptions hstart with ⟨hlead, -⟩ | ⟨hlead, -⟩ | ⟨ρ', hρ, hanswers, hm⟩
  · exact absurd hlead (by simp [Pace.inStep])
  · exact absurd hlead (by simp [Pace.inStep])
  · exact ⟨ρ', hρ, hanswers, level_inStep_iff.mp hm⟩

/-- Outcomes that go with each other ran out of fuel on both sides or on neither. -/
theorem Outcomes.outOfFuel_iff {o o' : Except Halt Value × Session} (h : layout.Outcomes ρ o o') :
    o.1 = .error .outOfFuel ↔ o'.1 = .error .outOfFuel := by
  obtain ⟨ρ', -, hanswers, -⟩ := h
  generalize o.1 = a at hanswers
  generalize o'.1 = a' at hanswers
  cases hanswers with
  | ok hv => simp
  | @error e e' he =>
    have hmoved : e'.moved .disregarded = e.moved .disregarded := he
    have hfuel : ∀ h : Halt, h.moved .disregarded = .outOfFuel ↔ h = .outOfFuel := by
      intro h
      cases h <;> simp [Halt.moved]
    rw [Except.error.injEq, Except.error.injEq, ← hfuel e, ← hfuel e', hmoved]

end Likeness

namespace Session

/-- The run of a tree comes to an end exactly if some fuel is enough for it. -/
theorem exists_runsTo_iff {s : Session} {checks : Option Nat} {tree : Node} :
    (∃ outcome, s.RunsTo checks tree outcome) ↔
      ∃ fuel, (s.runTree fuel checks tree).1 ≠ .error .outOfFuel := by
  constructor
  · rintro ⟨outcome, hfuel, enough, henough⟩
    exact ⟨enough, by rwa [henough enough (Nat.le_refl _)]⟩
  · rintro ⟨fuel, hfuel⟩
    exact ⟨_, runsTo_of_fuel rfl hfuel⟩

end Session

/-- Layout changes nothing but reported places. Let two trees be the same but for the places of
their tokens, and let two machines be alike but for places in the bodies of functions, the
identities of functions being paired. Then the trees, evaluated from the same slot with the same
fuel, give values that go with each other or stop for the same reason but for the place it names,
and leave machines that are alike again: what is written, what is left of the input and how many
questions are left is the same on both sides. The same holds of runs in sessions with the same
options, and one of them comes to an end if and only if the other one does. -/
theorem layout_changes_only_places (ρ : Pairing) :
    (∀ (maxDepth : Int) (fuel slot : Nat) (n n' : Node) (m m' : Machine), n.SameButPlaces n' →
      Likeness.layout.Machines ρ m m' →
      Likeness.layout.Results Likeness.layout.Values ρ (eval maxDepth fuel slot n m)
        (eval maxDepth fuel slot n' m')) ∧
    ∀ (s s' : Session) (checks : Option Nat) (tree tree' : Node), s'.options = s.options →
      Likeness.layout.Machines ρ s.machine s'.machine → tree.SameButPlaces tree' →
      (∀ fuel, Likeness.layout.Outcomes ρ (s.runTree fuel checks tree)
        (s'.runTree fuel checks tree')) ∧
      ((∃ outcome, s.RunsTo checks tree outcome) ↔
        ∃ outcome', s'.RunsTo checks tree' outcome') := by
  constructor
  · intro maxDepth fuel slot n n' m m' hn hm
    have hlevel := Likeness.level_inStep_iff.mpr hm
    exact (Likeness.eval maxDepth fuel hn ρ m m' (.refl ρ) hlevel).results
  · intro s s' checks tree tree' hoptions hmachine htree
    have hruns : ∀ fuel, Likeness.layout.Outcomes ρ (s.runTree fuel checks tree)
        (s'.runTree fuel checks tree') :=
      fun fuel => Likeness.runTree hoptions hmachine fuel checks htree
    refine ⟨hruns, ?_⟩
    rw [Session.exists_runsTo_iff, Session.exists_runsTo_iff]
    exact exists_congr fun fuel => not_congr (hruns fuel).outOfFuel_iff

/-- The identities below a bound, each paired with itself. -/
def Pairing.upTo (bound : Nat) : Pairing where
  pairs a b := b = a ∧ a < bound
  eq_right := by
    rintro a b b' ⟨rfl, -⟩ ⟨rfl, -⟩
    rfl
  eq_left := by
    rintro a a' b ⟨rfl, -⟩ ⟨rfl, -⟩
    rfl

/-- A new session is like itself. -/
theorem Session.start_alike (options : Options) (input : Text) (broken : Bool)
    (writes : Option Nat) : Likeness.layout.Machines (.upTo 2)
      (start options input broken writes).machine (start options input broken writes).machine := by
  have hframe : Likeness.layout.Frames (.upTo 2)
      ⟨[("input", .builtin 1 "input"), ("print", .builtin 0 "print")], none⟩
      ⟨[("input", .builtin 1 "input"), ("print", .builtin 0 "print")], none⟩ := by
    refine ⟨rfl, fun name => ?_⟩
    unfold Frame.get?
    by_cases hinput : name = "input"
    · subst hinput
      exact .some (.builtin _ ⟨rfl, by decide⟩)
    · by_cases hprint : name = "print"
      · subst hprint
        exact .some (.builtin _ ⟨rfl, by decide⟩)
      · have hnone : List.lookup name [("input", Value.builtin 1 "input"),
            ("print", .builtin 0 "print")] = none := by
          simp [hinput, hprint]
        rw [hnone]
        exact .none
  refine ⟨⟨rfl, fun i => ?_⟩, rfl, rfl, rfl, rfl, rfl, rfl, ?_⟩
  · cases i with
    | zero => exact .some hframe
    | succ i => exact .none
  · rintro a b ⟨rfl, hlt⟩
    exact ⟨hlt, hlt⟩

/-- A function is defined at two places, three lines apart. Then it is selected by its identity and
called, and stops for the same reason, which it reports at each of the two places. -/
theorem layout_changes_only_places_division :
    let define := Node.definition .origin "f" ["x"] .origin
      [.ret .origin (.binary .origin .modulo (.reference .origin "x") (.integer .origin 0))]
    let use := Node.select .origin (.reference .origin "f")
      (.pattern .origin (.reference .origin "f") (.call .origin "f" [.integer .origin 1]) .done)
    let start := Session.start ⟨false, 10⟩ [] false none
    let s := (start.runTree 9 none define).2
    let s' := (start.runTree 9 none (define.moved (.below 3))).2
    (∃ ρ, Likeness.layout.Machines ρ s.machine s'.machine ∧
      Likeness.layout.Outcomes ρ (s.runTree 9 none use) (s'.runTree 9 none use)) ∧
    (s.runTree 9 none use).1 = .error (.fault (.divisionByZero ⟨0, 0⟩)) ∧
    (s'.runTree 9 none use).1 = .error (.fault (.divisionByZero ⟨3, 0⟩)) := by
  intro define use start s s'
  have hdefined := ((layout_changes_only_places (.upTo 2)).2 start start none define
    (define.moved (.below 3)) rfl (Session.start_alike _ _ _ _) rfl).1 9
  obtain ⟨ρ, -, -, hmachines⟩ := hdefined
  refine ⟨⟨ρ, hmachines, ?_⟩, ?_, ?_⟩
  · exact ((layout_changes_only_places ρ).2 s s' none use use rfl hmachines rfl).1 9
  · exact Session.stop?_eq_some_iff.mp (by decide +kernel)
  · exact Session.stop?_eq_some_iff.mp (by decide +kernel)

end Offside
