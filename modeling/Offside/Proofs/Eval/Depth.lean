import Offside.Proofs.Eval.Cutoff
import Offside.Proofs.Eval.Refinement

/-!
# Calls are counted and bounded

The number of calls in progress and the frames are two parts of the machine, and each call changes
both. A machine is `Counted` if they are in step, one frame for every call beside the root, and if
there are no more frames than the permitted depth allows. The permitted depth may be zero or
negative: then the root is the only frame.

Which evaluations a session comes to start is said without following the forms of nodes once more.
A computation over an evaluator starts an evaluation at a point if what it comes to depends on what
the evaluator does there (`Eval.Starts`), and a session reaches the points that its program starts
and those that the evaluation of a reached point starts (`Session.Reaches`). Two evaluators that
agree on all counted machines give the same computation (`Agrees.step`), so an evaluation cannot be
started on any other.

The journal shows by which call a run was stopped for its depth: the line of a call is written once
its frame is there, and lines are never taken back.
-/

set_option autoImplicit false

namespace Offside

/-! ## Counted machines -/

/-- Every frame but the root belongs to a call in progress, and there are no more frames than
permitted. -/
structure Counted (maxDepth : Int) (m : Machine) : Prop where
  depth : m.depth + 1 = m.scopes.count
  bound : (m.scopes.count : Int) ≤ max maxDepth 0 + 1

namespace Counted

variable {maxDepth : Int} {slot : Nat} {m m' : Machine}

/-- A machine that counts its calls has at least the outermost frame. -/
theorem count_pos (h : Counted maxDepth m) : 0 < m.scopes.count := by
  have hdepth := h.depth
  omega

/-- Restoring the frames keeps the count of the calls right. -/
theorem of_restores (h : Counted maxDepth m) (hr : Restores slot m m') : Counted maxDepth m' where
  depth := by rw [hr.depth, hr.count, h.depth]
  bound := by rw [hr.count]; exact h.bound

/-- A call that the permitted depth allows adds one to both numbers. -/
theorem entered (h : Counted maxDepth m) (hdepth : ¬ maxDepth ≤ m.depth) :
    Counted maxDepth (Run.entered m slot) := by
  have hcount : (Run.entered m slot).scopes.count = m.scopes.count + 1 :=
    Scopes.count_child m.scopes slot
  have hstep : (Run.entered m slot).depth = m.depth + 1 := rfl
  have hm := h.depth
  constructor
  · omega
  · omega

/-- One frame more would be too many just where a call is refused. -/
theorem exceeds_iff (h : Counted maxDepth m) :
    max maxDepth 0 + 1 < (m.scopes.count : Int) + 1 ↔ maxDepth ≤ m.depth := by
  have hm := h.depth
  omega

end Counted

/-! ## Computations over two evaluators -/

/-- A body that is run in a new frame matters by what it does on the machine it is given. -/
theorem Run.inNewFrame_congr {α : Type} {slot : Nat} {body body' : Nat → Run α} {m : Machine}
    (h : body' m.scopes.count (Run.entered m slot) = body m.scopes.count (Run.entered m slot)) :
    Run.inNewFrame slot body' m = Run.inNewFrame slot body m := by
  simp only [Run.entered, Scopes.child, Scopes.count] at h
  simp only [Run.inNewFrame, Scopes.child]
  rw [h]

/-- On counted machines the first computation restores the frames, and the second one does the same
as the first. -/
structure Agrees {α : Type} (maxDepth : Int) (slot : Nat) (x y : Run α) : Prop where
  restores : ∀ m, Counted maxDepth m → Restores slot m (x.final m)
  same : ∀ m, Counted maxDepth m → y m = x m

namespace Agrees

variable {α β : Type} {maxDepth : Int} {slot : Nat}

/-- A computation that restores the frames agrees with itself. -/
theorem of_keeps {x : Run α} (hx : Run.Keeps (Restores slot) x) : Agrees maxDepth slot x x where
  restores m _ := hx m
  same _ _ := rfl

/-- Sequences agree if their first parts do, and what follows them does. -/
theorem bind {x y : Run α} {f g : α → Run β} (hx : Agrees maxDepth slot x y)
    (hf : ∀ a, Agrees maxDepth slot (f a) (g a)) : Agrees maxDepth slot (x >>= f) (y >>= g) where
  restores m hm := by
    have hfirst := hx.restores m hm
    rw [Run.final_bind]
    cases hr : x m with
    | ok a m₁ =>
      rw [Run.final_of_ok hr] at hfirst
      exact hfirst.trans ((hf a).restores m₁ (hm.of_restores hfirst))
    | error e m₁ =>
      rw [Run.final_of_error hr] at hfirst
      exact hfirst
  same m hm := by
    have hfirst := hx.restores m hm
    show EStateM.bind y g m = EStateM.bind x f m
    unfold EStateM.bind
    rw [hx.same m hm]
    cases hr : x m with
    | ok a m₁ =>
      rw [Run.final_of_ok hr] at hfirst
      exact (hf a).same m₁ (hm.of_restores hfirst)
    | error e m₁ => rfl

/-- Agreement is a congruence: every action has it to itself and sequences carry it over. -/
theorem congruence (maxDepth : Int) : Eval.Congruence (Agrees maxDepth) where
  pure _ a := of_keeps (Restores.kept.keeps_pure a)
  throw _ h := of_keeps (Restores.kept.keeps_throw h)
  bind _ _ _ _ _ := bind
  check slot := of_keeps (Restores.kept.check slot)
  log slot entry := of_keeps (Restores.kept.log slot entry)
  freshId slot := of_keeps (Restores.kept.freshId slot)
  write slot piece := of_keeps (Restores.kept.write slot piece)
  readLine slot := of_keeps (Restores.kept.readLine slot)
  lookup slot name := of_keeps (Restores.kept.keeps_of_final_eq (Run.final_lookup slot name))
  declare slot name v := of_keeps (Restores.declare slot name v)
  assign slot name v := of_keeps (Restores.assign slot name v)

section Calls

variable {ev ev' : Evaluator} (hkeeps : ∀ slot node, Run.Keeps (Restores slot) (ev slot node))
  (hev : ∀ slot node, Agrees maxDepth slot (ev slot node) (ev' slot node))
include hkeeps hev

/-- A function is entered the same way: its body begins on a counted machine, and what is done with
the frame afterwards depends on nothing but how the body ends. -/
theorem enter (tok : Token) (name : String) (f : Function) (args : List Value) :
    Agrees maxDepth slot (Eval.enter maxDepth ev slot tok name f args)
      (Eval.enter maxDepth ev' slot tok name f args) where
  restores m hm := Restores.kept.final_enter hkeeps hm.count_pos tok name f args
  same m hm := by
    by_cases hlimit : maxDepth ≤ m.depth
    · rw [Eval.enter_of_le hlimit, Eval.enter_of_le hlimit]
    · rw [Eval.enter_of_not_le hlimit, Eval.enter_of_not_le hlimit]
      apply Run.inNewFrame_congr
      have hbody := (congruence maxDepth).callBody hev name f args m.scopes.count
      exact hbody.same _ (hm.entered hlimit)

/-- Calls agree if the evaluators do, since the body is run one call deeper. -/
theorem call (tok : Token) (name : String) (args : List Node) :
    Agrees maxDepth slot (Eval.call maxDepth ev slot tok name args)
      (Eval.call maxDepth ev' slot tok name args) := by
  have C := congruence maxDepth
  apply bind (C.check slot)
  intro _
  apply bind (C.lookup slot name)
  intro callee
  cases callee with
  | builtin id b => exact bind (C.runArgs (hev slot) args) fun vs => C.builtin b vs
  | function f =>
    dsimp only
    split
    · exact C.throw slot _
    · exact bind (C.runArgs (hev slot) args) fun vs => enter hkeeps hev tok name f vs
  | _ => exact C.throw slot _

/-- What a node does depends on the evaluator on counted machines only. -/
theorem step (node : Node) :
    Agrees maxDepth slot (Eval.step maxDepth ev slot node) (Eval.step maxDepth ev' slot node) :=
  (congruence maxDepth).step hev node (call hkeeps hev)

end Calls

end Agrees

/-! ## The evaluations that a session starts -/

namespace Eval

/-- An evaluation to be started: of a node, as seen from a slot, on a machine. -/
structure Point where
  /-- The slot that is looked from. -/
  slot : Nat
  /-- The node that is evaluated. -/
  node : Node
  /-- The machine at the start. -/
  machine : Machine

/-- Run on the machine with the evaluator, the computation starts an evaluation at the point: with
an evaluator that does something else there, and only there, it comes to something else. -/
def Starts {α : Type} (x : Evaluator → Run α) (ev : Evaluator) (m : Machine) (p : Point) : Prop :=
  ∃ ev' : Evaluator,
    (∀ q : Point, q ≠ p → ev' q.slot q.node q.machine = ev q.slot q.node q.machine) ∧
      x ev' m ≠ x ev m

/-- A computation that asks for the outcome at one point only, and does not come to the same for all
outcomes there, starts an evaluation at the point. -/
theorem starts_of_only {α : Type} {x : Evaluator → Run α} {ev : Evaluator} {m : Machine} {p : Point}
    (honly : ∀ ev : Evaluator, x ev m = x (fun _ _ _ => ev p.slot p.node p.machine) m)
    {r : EStateM.Result Halt Machine Value} (hr : x (fun _ _ _ => r) m ≠ x ev m) :
    Starts x ev m p := by
  classical
  obtain ⟨ev', hp, hq⟩ : ∃ ev' : Evaluator, ev' p.slot p.node p.machine = r ∧
      ∀ q : Point, q ≠ p → ev' q.slot q.node q.machine = ev q.slot q.node q.machine :=
    ⟨fun slot node machine =>
      if (⟨slot, node, machine⟩ : Point) = p then r else ev slot node machine,
      if_pos rfl, fun _ hne => if_neg hne⟩
  refine ⟨ev', hq, ?_⟩
  rw [honly ev', hp]
  exact hr

/-- No evaluation is started where the calls are not counted, if evaluators that agree elsewhere
give the same computation. -/
theorem Starts.counted {α : Type} {maxDepth : Int} {x : Evaluator → Run α} {ev : Evaluator}
    {m : Machine} {p : Point} (h : Starts x ev m p) (slot : Nat)
    (hkeeps : ∀ slot node, Run.Keeps (Restores slot) (ev slot node)) (hm : Counted maxDepth m)
    (hx : ∀ ev' : Evaluator, (∀ slot node, Agrees maxDepth slot (ev slot node) (ev' slot node)) →
      Agrees maxDepth slot (x ev) (x ev')) : Counted maxDepth p.machine := by
  by_contra hp
  obtain ⟨ev', hsame, hne⟩ := h
  apply hne
  refine (hx ev' fun slot node => ⟨fun m₁ _ => hkeeps slot node m₁, ?_⟩).same m hm
  intro m₁ hm₁
  apply hsame ⟨slot, node, m₁⟩
  rintro rfl
  exact hp hm₁

end Eval

namespace Session

/-- A program whose statements are evaluated in a given way. -/
def programWith (options : Options) (program : List Node) (ev : Evaluator) : Run Value := do
  Run.log (.started program.length)
  runStatements options.echo (ev 0) .nil program

/-- A program is run by the evaluator with its options and fuel. -/
theorem runProgram_eq_programWith (options : Options) (fuel : Nat) (program : List Node) :
    runProgram options fuel program =
      programWith options program (eval options.maxDepth fuel) := rfl

/-- The evaluations that the run of a tree comes to start, with the fuel that each of them has:
those that the program starts, and those that the evaluation of a reached point starts. -/
inductive Reaches (s : Session) (fuel : Nat) (checks : Option Nat) (tree : Node) :
    (left : Nat) → Eval.Point → Prop
  | statement {p : Eval.Point}
      (h : Eval.Starts (programWith s.options (statementsOf tree)) (eval s.options.maxDepth fuel)
        { s.machine with checksLeft := checks } p) : Reaches s fuel checks tree fuel p
  | part {left : Nat} {p q : Eval.Point} (hp : Reaches s fuel checks tree (left + 1) p)
      (h : Eval.Starts (fun ev => Eval.step s.options.maxDepth ev p.slot p.node)
        (eval s.options.maxDepth left) p.machine q) : Reaches s fuel checks tree left q

/-- In a session that rests on a counted machine, every evaluation is started on one. -/
theorem Reaches.counted {s : Session} {fuel : Nat} {checks : Option Nat} {tree : Node} {left : Nat}
    {p : Eval.Point} (h : s.Reaches fuel checks tree left p)
    (hs : Counted s.options.maxDepth s.machine) : Counted s.options.maxDepth p.machine := by
  induction h with
  | statement h =>
    have hkeeps := Restores.kept.eval s.options.maxDepth fuel
    apply h.counted 0 hkeeps ⟨hs.depth, hs.bound⟩
    intro ev' hev
    apply Agrees.bind (.of_keeps (Restores.kept.log 0 _))
    intro _
    exact (Agrees.congruence _).runStatements (hev 0) s.options.echo .nil (statementsOf tree)
  | @part left p q _ h ih =>
    have hkeeps := Restores.kept.eval s.options.maxDepth left
    apply h.counted p.slot hkeeps ih
    intro ev' hev
    exact Agrees.step hkeeps hev p.node

/-- After any steps a session rests on the root frame alone, with no call in progress. -/
theorem counted_after (options : Options) (input : Text) (broken : Bool) (writes : Option Nat)
    (steps : List Step) :
    Counted options.maxDepth ((start options input broken writes).after steps).machine := by
  have hrestores := (start options input broken writes).after_restores steps
  have hdepth : (start options input broken writes).machine.depth = 0 := rfl
  have hcount : (start options input broken writes).machine.scopes.count = 1 := rfl
  refine Counted.of_restores ⟨?_, ?_⟩ hrestores
  · omega
  · omega

end Session

/-! ## The call that is refused -/

/-- The frames are restored, and the journal keeps its lines. -/
structure Journals (slot : Nat) (m m' : Machine) : Prop where
  restores : Restores slot m m'
  lines : m.journal <:+ m'.journal

/-- Every action only adds to the journal, and so does every evaluation. -/
theorem Journals.kept : Eval.Kept Journals where
  refl slot m := ⟨Restores.kept.refl slot m, List.suffix_refl _⟩
  trans slot _ _ _ h₁ h₂ := ⟨h₁.restores.trans h₂.restores, h₁.lines.trans h₂.lines⟩
  count slot _ _ h := h.restores.count
  check slot m := by
    refine ⟨Restores.kept.check slot m, ?_⟩
    unfold Run.final Run.check
    rcases m.checksLeft with _ | _ | n <;> exact List.suffix_refl _
  log slot entry m := ⟨Restores.kept.log slot entry m, List.suffix_cons entry m.journal⟩
  freshId slot m := ⟨Restores.kept.freshId slot m, List.suffix_refl _⟩
  write slot piece m := by
    refine ⟨Restores.kept.write slot piece m, ?_⟩
    unfold Run.final Run.write
    rcases m.writesLeft with _ | _ | n <;> exact List.suffix_refl _
  readLine slot m := by
    refine ⟨Restores.kept.readLine slot m, ?_⟩
    simp [Run.final_readLine]
  declare slot name v m := by
    refine ⟨Restores.kept.declare slot name v m, ?_⟩
    unfold Run.final Run.declare
    cases m.scopes.declare slot name v <;> exact List.suffix_refl _
  assign slot name v m := by
    refine ⟨Restores.kept.assign slot name v m, ?_⟩
    unfold Run.final Run.assign
    cases m.scopes.set slot name v <;> exact List.suffix_refl _
  leave slot m m' hm h := by
    refine ⟨h.restores.leave slot hm, ?_⟩
    have hlines : m.journal <:+ m'.journal := h.lines
    unfold Run.final Run.leave
    cases m'.scopes.release m.scopes.count <;> exact hlines

/-- Whether a run was stopped because calls nested too deeply. -/
def Halt.isTooDeep : Halt → Bool
  | .fault (.tooDeep ..) => true
  | _ => false

/-- No declaration is refused for the depth of calls. -/
theorem Run.declare_not_tooDeep {slot : Nat} {name : String} {v : Value} {m m' : Machine} {h : Halt}
    (hd : Run.declare slot name v m = .error h m') : h.isTooDeep = false := by
  unfold Run.declare Scopes.declare at hd
  cases hf : m.scopes.frames[slot]? with
  | none =>
    simp only [hf] at hd
    injection hd with hd _
    rw [← hd]
    rfl
  | some frame =>
    simp only [hf] at hd
    by_cases hdeclared : (frame.get? name).isSome
    · rw [if_pos hdeclared] at hd
      injection hd with hd _
      rw [← hd]
      rfl
    · rw [if_neg hdeclared] at hd
      exact absurd hd (by simp)

/-- The declaration of parameters never stops because calls nested too deeply. -/
theorem Run.declareAll_not_tooDeep {slot : Nat} {args : List Value} {names : List String}
    {index : Nat} {m m' : Machine} {h : Halt}
    (hd : Run.declareAll slot args index names m = .error h m') : h.isTooDeep = false := by
  induction names generalizing index m with
  | nil => exact absurd hd (by simp [Run.declareAll, Pure.pure, EStateM.pure])
  | cons name names ih =>
    unfold Run.declareAll at hd
    cases hv : args[index]? with
    | none =>
      rw [hv] at hd
      injection hd with hd _
      rw [← hd]
      rfl
    | some v =>
      rw [hv] at hd
      change EStateM.bind _ _ m = _ at hd
      unfold EStateM.bind at hd
      cases hr : Run.declare slot name v m with
      | ok u m₁ =>
        rw [hr] at hd
        exact ih hd
      | error e m₁ =>
        rw [hr] at hd
        injection hd with hd _
        rw [← hd]
        exact Run.declare_not_tooDeep hr

namespace Eval

/-- If the body of a call is stopped because calls nested too deeply, it was one that the body made:
the call itself stands in the journal by then. -/
theorem journal_lt_of_callBody {maxDepth : Int} {left frame : Nat} {name : String} {f : Function}
    {vs : List Value} {m m' : Machine} {h : Halt}
    (hbody : callBody (eval maxDepth left) name f vs frame m = .error h m')
    (hdeep : h.isTooDeep = true) : m.journal.length < m'.journal.length := by
  have hdeclared : Journals frame m ((Run.declareAll frame vs 0 f.params).final m) :=
    Journals.kept.keeps_declareAll vs 0 f.params m
  change EStateM.bind (Run.declareAll frame vs 0 f.params) _ m = _ at hbody
  unfold EStateM.bind at hbody
  cases hr : Run.declareAll frame vs 0 f.params m with
  -- a parameter that cannot be declared is another fault
  | error e m₁ =>
    rw [hr] at hbody
    injection hbody with he _
    rw [← he, Run.declareAll_not_tooDeep hr] at hdeep
    exact absurd hdeep (by simp)
  | ok u m₁ =>
    rw [hr] at hbody
    rw [Run.final_of_ok hr] at hdeclared
    have hrest : Run.Keeps (Journals frame)
        (runBlock (eval maxDepth left frame) f.body >>= fun v => pure (v.getD .nil)) :=
      Journals.kept.keeps_bind
        (Journals.kept.keeps_runBlock (Journals.kept.eval maxDepth left frame) f.body)
        fun _ => Journals.kept.keeps_pure _
    -- the line of the call is in the journal before the body runs, and the body only adds to it
    have hlines := (hrest { m₁ with
      journal := .call name vs.length (frame + 1) :: m₁.journal }).lines
    rw [Run.final_of_error hbody] at hlines
    have hbefore := hdeclared.lines.length_le
    have hafter := hlines.length_le
    rw [List.length_cons] at hafter
    omega

/-- A function that may be entered is not refused on the machine that the call is made on. -/
theorem enter_ne_tooDeep {maxDepth : Int} {left slot : Nat} {m : Machine} (hm : 0 < m.scopes.count)
    (hdepth : ¬ maxDepth ≤ m.depth) (tok : Token) (name : String) (f : Function) (vs : List Value) :
    enter maxDepth (eval maxDepth left) slot tok name f vs m ≠
      .error (.fault (.tooDeep name maxDepth tok.pos)) m := by
  intro heq
  have hkeeps := Restores.kept.keeps_callBody (Restores.kept.eval maxDepth left) name f vs
    m.scopes.count
  rw [enter_of_not_le hdepth, Run.inNewFrame_eq hm hkeeps] at heq
  cases hbody : callBody (eval maxDepth left) name f vs m.scopes.count (Run.entered m slot) with
  | ok v m₁ =>
    rw [hbody] at heq
    exact absurd heq (by simp)
  | error e m₁ =>
    rw [hbody] at heq
    injection heq with he hm₁
    have hlonger := journal_lt_of_callBody hbody (by rw [he]; rfl)
    have hjournal : (Run.exited m₁).journal = m.journal := by rw [hm₁]
    change m₁.journal = m.journal at hjournal
    rw [hjournal] at hlonger
    exact absurd hlonger (Nat.lt_irrefl _)

/-- Where the name of a call is that of a function and enough arguments have been evaluated, what is
left of the call is to enter the function. -/
theorem eval_call_eq_enter {maxDepth : Int} {left slot : Nat} {tok : Token} {name : String}
    {args : List Node} {f : Function} {vs : List Value} {m m₁ m₂ : Machine}
    (hcheck : Run.check m = .ok () m₁) (hname : m₁.scopes.get slot name = .ok (.function f))
    (hargs : f.params.length ≤ args.length)
    (hvs : runArgs (eval maxDepth left slot) args m₁ = .ok vs m₂) :
    eval maxDepth (left + 1) slot (.call tok name args) m =
      enter maxDepth (eval maxDepth left) slot tok name f vs m₂ := by
  have hlookup : Run.lookup slot name m₁ = .ok (.function f) m₁ := by
    unfold Run.lookup
    rw [hname]
  show EStateM.bind Run.check _ m = _
  unfold EStateM.bind
  rw [hcheck]
  show EStateM.bind (Run.lookup slot name) _ m₁ = _
  unfold EStateM.bind
  rw [hlookup]
  dsimp only
  rw [if_neg (by omega)]
  show EStateM.bind (runArgs (eval maxDepth left slot) args) _ m₁ = _
  unfold EStateM.bind
  rw [hvs]

/-- On a counted machine a call refuses to go deeper just where one frame more would be too many. -/
theorem eval_call_tooDeep_iff {maxDepth : Int} {left slot : Nat} {tok : Token} {name : String}
    {args : List Node} {f : Function} {vs : List Value} {m m₁ m₂ : Machine}
    (hm : Counted maxDepth m) (hcheck : Run.check m = .ok () m₁)
    (hname : m₁.scopes.get slot name = .ok (.function f)) (hargs : f.params.length ≤ args.length)
    (hvs : runArgs (eval maxDepth left slot) args m₁ = .ok vs m₂) :
    eval maxDepth (left + 1) slot (.call tok name args) m =
        .error (.fault (.tooDeep name maxDepth tok.pos)) m₂ ↔
      max maxDepth 0 + 1 < (m₂.scopes.count : Int) + 1 := by
  have hasked := Restores.kept.check slot m
  rw [Run.final_of_ok hcheck] at hasked
  have hevaluated := Restores.kept.keeps_runArgs (Restores.kept.eval maxDepth left slot) args m₁
  rw [Run.final_of_ok hvs] at hevaluated
  have hm₂ : Counted maxDepth m₂ := (hm.of_restores hasked).of_restores hevaluated
  rw [eval_call_eq_enter hcheck hname hargs hvs, hm₂.exceeds_iff]
  constructor
  · intro hrefused
    by_contra hdepth
    exact enter_ne_tooDeep hm₂.count_pos hdepth tok name f vs hrefused
  · intro hdepth
    exact enter_of_le hdepth _ slot tok name f vs

end Eval

/-- The depth of calls is counted exactly and bounded. Whatever a session has done before, each
evaluation that it comes to start is started on a machine with one frame for every call in progress
beside the root, and with at most one frame more than the permitted depth, a negative one counting
as zero. A call at such a point whose name is that of a function, and whose arguments are enough and
have been evaluated, is refused for its depth, on the machine that the arguments have left, just if
its frame would be one too many. -/
theorem calls_counted_and_bounded (options : Options) (input : Text) (broken : Bool)
    (writes : Option Nat) (steps : List Session.Step) (journal : List JournalEntry) (fuel : Nat)
    (checks : Option Nat) (tree : Node) (left : Nat) (p : Eval.Point)
    (hp : Session.Reaches
      { (Session.start options input broken writes).after steps with machine.journal := journal }
      fuel checks tree left p) :
    p.machine.depth + 1 = p.machine.scopes.count ∧
    (p.machine.scopes.count : Int) ≤ max options.maxDepth 0 + 1 ∧
    ∀ (rest : Nat) (tok : Token) (name : String) (args : List Node) (f : Function)
      (vs : List Value) (m₁ m₂ : Machine),
      left = rest + 1 → p.node = .call tok name args → Run.check p.machine = .ok () m₁ →
      m₁.scopes.get p.slot name = .ok (.function f) → f.params.length ≤ args.length →
      Eval.runArgs (eval options.maxDepth rest p.slot) args m₁ = .ok vs m₂ →
      (eval options.maxDepth left p.slot p.node p.machine =
          .error (.fault (.tooDeep name options.maxDepth tok.pos)) m₂ ↔
        max options.maxDepth 0 + 1 < (m₂.scopes.count : Int) + 1) := by
  have hoptions := (Session.start options input broken writes).options_after steps
  have hrest := Session.counted_after options input broken writes steps
  have hcounted : Counted options.maxDepth p.machine := by
    have hreached := hp.counted
    dsimp only at hreached
    rw [hoptions] at hreached
    exact hreached ⟨hrest.depth, hrest.bound⟩
  refine ⟨hcounted.depth, hcounted.bound, ?_⟩
  intro rest tok name args f vs m₁ m₂ hleft hnode hcheck hname hargs hvs
  rw [hleft, hnode]
  exact Eval.eval_call_tooDeep_iff hcounted hcheck hname hargs hvs

/-- Where one call may be in progress, a function that calls itself is refused its second call. -/
theorem calls_counted_and_bounded_nested :
    let call := Node.call .origin "f" []
    let define := Node.definition .origin "f" [] .origin [call]
    let s := (Session.start ⟨false, 1⟩ [] false none).after [⟨.tree define, 1, none⟩]
    let root : Frame := ⟨("f", .function ⟨2, "f", [], [call]⟩) ::
      [("input", .builtin 1 "input"), ("print", .builtin 0 "print")], none⟩
    let top : Machine := ⟨⟨#[root]⟩, 0, [], false, [], none, none, 3, [.started 1]⟩
    let inner := { Run.entered top 0 with journal := [.call "f" 0 2, .started 1] }
    Session.Reaches { s with machine.journal := [] } 3 none call 2 ⟨1, call, inner⟩ ∧
      (inner.depth + 1 = inner.scopes.count ∧ (inner.scopes.count : Int) ≤ max 1 0 + 1) ∧
      eval 1 2 1 call inner = .error (.fault (.tooDeep "f" 1 Token.origin.pos)) inner := by
  intro call define s root top inner
  have hprogram : Eval.Starts (Session.programWith ⟨false, 1⟩ [call]) (eval 1 3)
      { top with journal := [] } ⟨0, call, top⟩ := by
    apply Eval.starts_of_only (fun _ => rfl) (r := .error .cancelled top)
    intro h
    injection h with h _
    exact absurd h (by simp)
  have hbody : Eval.Starts (fun ev => Eval.step 1 ev 0 call) (eval 1 2) top ⟨1, call, inner⟩ := by
    apply Eval.starts_of_only (fun _ => rfl) (r := .error .cancelled inner)
    intro h
    injection h with h _
    exact absurd h (by simp)
  have hs : { s with machine.journal := [] } = Session.mk ⟨false, 1⟩ { top with journal := [] } :=
    rfl
  have hinner : Session.Reaches { s with machine.journal := [] } 3 none call 2
      ⟨1, call, inner⟩ := by
    rw [hs]
    exact .part (.statement hprogram) hbody
  obtain ⟨hdepth, hbound, hrefused⟩ := calls_counted_and_bounded ⟨false, 1⟩ [] false none
    [⟨.tree define, 1, none⟩] [] 3 none call 2 ⟨1, call, inner⟩ hinner
  refine ⟨hinner, ⟨hdepth, hbound⟩, ?_⟩
  have hiff := hrefused 1 .origin "f" [] ⟨2, "f", [], [call]⟩ [] inner inner rfl rfl rfl rfl
    (Nat.le_refl 0) rfl
  exact hiff.mpr (by decide)

end Offside
