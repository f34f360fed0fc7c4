import Offside.Proofs.Eval.Restoration

/-!
# A run that is cut short is the beginning of a longer one

A run is bounded in three ways: by its fuel, by the depth to which calls may nest, and by the number
of questions after which it is cancelled. With more of any of them a run does the same up to where
the shorter run was stopped for want of it (`Begins.eval`). If the shorter run was not stopped so,
both are the same in everything but the questions left; if it was, the longer run has written all
that the shorter one wrote, and has left no input that the shorter one had read.

What a run comes to is therefore the same with any fuel that is enough (`Session.runsTo_of_fuel`),
and cancelling a run only cuts it short.
-/

set_option autoImplicit false

namespace Offside

/-! ## What a run has done stays done -/

/-- What was written is still there, and what is left of the input was left before. -/
structure Onward (m m' : Machine) : Prop where
  output : m.output <:+ m'.output
  input : m'.input <:+ m.input

namespace Onward

/-- Where nothing is written or read, a machine has only gone on. -/
theorem of_eq {m m' : Machine} (ho : m'.output = m.output) (hi : m'.input = m.input) :
    Onward m m' := by
  constructor
  · simp [ho]
  · simp [hi]

/-- Going on and going on again is going on. -/
theorem trans {m m' m'' : Machine} (h₁ : Onward m m') (h₂ : Onward m' m'') : Onward m m'' :=
  ⟨h₁.output.trans h₂.output, h₂.input.trans h₁.input⟩

/-- What was written stays at the front of what is written later. -/
theorem written_prefix {m m' : Machine} (h : Onward m m') : m.written <+: m'.written := by
  obtain ⟨later, hlater⟩ := h.output
  use later.reverse.flatten
  simp [Machine.written, ← hlater]

/-- Leaving a frame writes and reads nothing. -/
theorem leave (frame : Nat) (m : Machine) : Onward m ((Run.leave frame).final m) := by
  unfold Run.final Run.leave
  cases m.scopes.release frame <;> exact of_eq rfl rfl

end Onward

/-- What is left behind the first line of a text is an end of the text. -/
theorem Text.splitLine_suffix (t : Text) : t.splitLine.2 <:+ t := by
  induction t with
  | nil => exact List.suffix_refl _
  | cons b rest ih =>
    unfold splitLine
    split
    · exact List.suffix_cons b rest
    · exact ih.trans (List.suffix_cons b rest)

/-- The frames are restored, and what was done stays done. -/
structure Grows (slot : Nat) (m m' : Machine) : Prop where
  restores : Restores slot m m'
  onward : Onward m m'

/-- Every action restores the frames and only goes on, and so does every evaluation. -/
theorem Grows.kept : Eval.Kept Grows where
  refl slot m := ⟨Restores.kept.refl slot m, .of_eq rfl rfl⟩
  trans slot _ _ _ h₁ h₂ := ⟨h₁.restores.trans h₂.restores, h₁.onward.trans h₂.onward⟩
  count slot _ _ h := h.restores.count
  check slot m := by
    refine ⟨Restores.kept.check slot m, ?_⟩
    unfold Run.final Run.check
    rcases m.checksLeft with _ | _ | n <;> exact .of_eq rfl rfl
  log slot entry m := ⟨Restores.kept.log slot entry m, .of_eq rfl rfl⟩
  freshId slot m := ⟨Restores.kept.freshId slot m, .of_eq rfl rfl⟩
  write slot piece m := by
    refine ⟨Restores.kept.write slot piece m, ?_⟩
    unfold Run.final Run.write
    rcases m.writesLeft with _ | _ | n
    · exact ⟨List.suffix_cons piece m.output, List.suffix_refl _⟩
    · exact .of_eq rfl rfl
    · exact ⟨List.suffix_cons piece m.output, List.suffix_refl _⟩
  readLine slot m := by
    refine ⟨Restores.kept.readLine slot m, ?_⟩
    rw [Run.final_readLine]
    exact ⟨List.suffix_refl _, Text.splitLine_suffix m.input⟩
  declare slot name v m := by
    refine ⟨Restores.kept.declare slot name v m, ?_⟩
    unfold Run.final Run.declare
    cases m.scopes.declare slot name v <;> exact .of_eq rfl rfl
  assign slot name v m := by
    refine ⟨Restores.kept.assign slot name v m, ?_⟩
    unfold Run.final Run.assign
    cases m.scopes.set slot name v <;> exact .of_eq rfl rfl
  leave slot m m' hm h := by
    have hentered : Onward m (Run.entered m slot) := .of_eq rfl rfl
    exact ⟨h.restores.leave slot hm, (hentered.trans h.onward).trans (.leave _ m')⟩

/-- The machine after the last frame was released. -/
def Run.exited (m : Machine) : Machine :=
  { m with scopes := ⟨m.scopes.frames.pop⟩, depth := m.depth - 1 }

/-- A frame whose body has restored the frames is the last one, and can be left. -/
theorem Restores.leave_eq {slot : Nat} {m m' : Machine} (hm : 0 < m.scopes.count)
    (h : Restores m.scopes.count (Run.entered m slot) m') :
    Run.leave m.scopes.count m' = .ok () (Run.exited m') := by
  have hcount : m'.scopes.count = m.scopes.count + 1 :=
    h.count.trans (Scopes.count_child m.scopes slot)
  have hrelease := Scopes.release_last m'.scopes (by omega)
  rw [hcount, Nat.add_sub_cancel] at hrelease
  unfold Run.leave
  simp only [hrelease]
  rfl

/-- A body that restores the frames ends a call the way it ends itself. -/
theorem Run.inNewFrame_eq {α : Type} {slot : Nat} {body : Nat → Run α} {m : Machine}
    (hm : 0 < m.scopes.count)
    (h : Run.Keeps (Restores m.scopes.count) (body m.scopes.count)) :
    Run.inNewFrame slot body m =
      match body m.scopes.count (Run.entered m slot) with
      | .ok v m₁ => .ok v (Run.exited m₁)
      | .error e m₁ => .error e (Run.exited m₁) := by
  have hrestored := h (Run.entered m slot)
  show (match body m.scopes.count (Run.entered m slot) with
    | .ok v m₁ => EStateM.bind (Run.leave m.scopes.count) (fun _ => EStateM.pure v) m₁
    | .error e m₁ => EStateM.bind (Run.leave m.scopes.count) (fun _ => EStateM.throw e) m₁) = _
  unfold Run.final at hrestored
  cases hr : body m.scopes.count (Run.entered m slot) with
  | ok v m₁ =>
    rw [hr] at hrestored
    simp only [EStateM.bind, hrestored.leave_eq hm]
    rfl
  | error e m₁ =>
    rw [hr] at hrestored
    simp only [EStateM.bind, hrestored.leave_eq hm]
    rfl

/-- A question that finds the run cancelled changes nothing. -/
theorem Run.check_error {m m' : Machine} {h : Halt} (hc : Run.check m = .error h m') : m' = m := by
  unfold Run.check at hc
  cases hm : m.checksLeft with
  | none => simp [hm] at hc
  | some n =>
    cases n with
    | zero => simp_all
    | succ n => simp [hm] at hc

/-! ## Machines that differ in the questions left -/

/-- The machine with another number of questions left. -/
def Machine.withChecks (m : Machine) (checks : Option Nat) : Machine :=
  { m with checksLeft := checks }

/-- There are as many questions left, or more of them where a run may stop for having none. -/
def Lasts (stop : Halt → Prop) (checks checks' : Option Nat) : Prop :=
  checks' = checks ∨
    stop .cancelled ∧ ∀ k', checks' = some k' → ∃ k, checks = some k ∧ k ≤ k'

/-- The second machine is the first one with at least as many questions left. -/
def Ahead (stop : Halt → Prop) (m m' : Machine) : Prop :=
  ∃ checks, m' = m.withChecks checks ∧ Lasts stop m.checksLeft checks

/-- The machine of a result. -/
def Run.machineOf {α : Type} : EStateM.Result Halt Machine α → Machine
  | .ok _ m => m
  | .error _ m => m

/-- The shorter run came to the first result and the longer run to the second: both are the same, or
the shorter run was stopped for want of something. -/
def Paired {α : Type} (stop : Halt → Prop) (r r' : EStateM.Result Halt Machine α) : Prop :=
  match r with
  | .ok a m => ∃ m', r' = .ok a m' ∧ Ahead stop m m'
  | .error h m =>
      (∃ m', r' = .error h m' ∧ Ahead stop m m') ∨ stop h ∧ Onward m (Run.machineOf r')

/-- The first computation is a beginning of the second one. -/
structure Begins {α : Type} (stop : Halt → Prop) (slot : Nat) (x y : Run α) : Prop where
  left : Run.Keeps (Grows slot) x
  right : Run.Keeps (Grows slot) y
  paired : ∀ m m', Ahead stop m m' → Paired stop (x m) (y m')

/-- The computation does the same whatever number of questions is left. -/
def Run.Blind {α : Type} (x : Run α) : Prop :=
  ∀ m checks, x (m.withChecks checks) =
    match x m with
    | .ok a m' => .ok a (m'.withChecks checks)
    | .error h m' => .error h (m'.withChecks checks)

namespace Run.Blind

/-- A line of the journal does not depend on the questions left. -/
theorem log (entry : JournalEntry) : Blind (Run.log entry) := fun _ _ => rfl

/-- A new identity does not depend on the questions left. -/
theorem freshId : Blind Run.freshId := fun _ _ => rfl

/-- What a name is bound to does not depend on the questions left. -/
theorem lookup (slot : Nat) (name : String) : Blind (Run.lookup slot name) := by
  intro m checks
  unfold Run.lookup Machine.withChecks
  cases m.scopes.get slot name <;> rfl

/-- A declaration does not depend on the questions left. -/
theorem declare (slot : Nat) (name : String) (v : Value) : Blind (Run.declare slot name v) := by
  intro m checks
  unfold Run.declare Machine.withChecks
  cases m.scopes.declare slot name v <;> rfl

/-- An assignment does not depend on the questions left. -/
theorem assign (slot : Nat) (name : String) (v : Value) : Blind (Run.assign slot name v) := by
  intro m checks
  unfold Run.assign Machine.withChecks
  cases m.scopes.set slot name v <;> rfl

/-- A write does not depend on the questions left. -/
theorem write (piece : Text) : Blind (Run.write piece) := by
  intro m checks
  unfold Run.write Machine.withChecks
  cases hw : m.writesLeft with
  | none => simp
  | some n => cases n <;> simp [hw]

/-- The line that is read does not depend on the questions left. -/
theorem readLine : Blind Builtin.readLine := by
  intro m checks
  unfold Builtin.readLine Machine.withChecks
  dsimp only
  by_cases h₁ : m.input.splitLine.1.endsLine
  · simp [h₁]
  · by_cases h₂ : m.inputBroken
    · simp [h₁, h₂]
    · by_cases h₃ : m.input.splitLine.1.isEmpty <;> simp [h₁, h₂, h₃]

/-- A blind computation leaves the number of questions as it is. -/
theorem checksLeft {α : Type} {x : Run α} (hx : Blind x) (m : Machine) :
    (machineOf (x m)).checksLeft = m.checksLeft := by
  have h := hx m m.checksLeft
  have hsame : m.withChecks m.checksLeft = m := rfl
  rw [hsame] at h
  cases hr : x m with
  | ok a m₁ =>
    rw [hr] at h
    injection h with _ h
    rw [machineOf, h]
    rfl
  | error e m₁ =>
    rw [hr] at h
    injection h with _ h
    rw [machineOf, h]
    rfl

end Run.Blind

namespace Begins

variable {α β : Type} {stop : Halt → Prop} {slot : Nat}

/-- A blind computation is a beginning of itself. -/
theorem of_blind {x : Run α} (hblind : Run.Blind x) (hx : Run.Keeps (Grows slot) x) :
    Begins stop slot x x := by
  refine ⟨hx, hx, ?_⟩
  rintro m m' ⟨checks, rfl, hlasts⟩
  have hleft := hblind.checksLeft m
  have h := hblind m checks
  cases hr : x m with
  | ok a m₁ =>
    rw [hr] at h hleft
    rw [h]
    refine ⟨_, rfl, checks, rfl, ?_⟩
    rw [show m₁.checksLeft = m.checksLeft from hleft]
    exact hlasts
  | error e m₁ =>
    rw [hr] at h hleft
    rw [h]
    refine Or.inl ⟨_, rfl, checks, rfl, ?_⟩
    rw [show m₁.checksLeft = m.checksLeft from hleft]
    exact hlasts

/-- A value is a beginning of itself. -/
theorem pure (a : α) : Begins stop slot (Pure.pure a : Run α) (Pure.pure a) :=
  of_blind (fun _ _ => rfl) (Grows.kept.keeps_pure a)

/-- A stop is a beginning of itself. -/
theorem throw (h : Halt) :
    Begins stop slot (MonadExcept.throw h : Run α) (MonadExcept.throw h) :=
  of_blind (fun _ _ => rfl) (Grows.kept.keeps_throw h)

/-- A computation that is stopped at once for want of something is a beginning of any other. -/
theorem of_stop {h : Halt} (hstop : stop h) {y : Run α} (hy : Run.Keeps (Grows slot) y) :
    Begins stop slot (MonadExcept.throw h : Run α) y := by
  refine ⟨Grows.kept.keeps_throw h, hy, ?_⟩
  rintro m m' ⟨checks, rfl, -⟩
  have honward : Onward m (m.withChecks checks) := .of_eq rfl rfl
  exact Or.inr ⟨hstop, honward.trans (hy (m.withChecks checks)).onward⟩

/-- The results of sequences are paired if those of the first parts are, and what follows them is.
-/
theorem paired_bind {x y : Run α} {f g : α → Run β} {m m' : Machine}
    (hxy : Paired stop (x m) (y m'))
    (hright : ∀ a m₁, y m' = .ok a m₁ → Onward m₁ ((g a).final m₁))
    (hf : ∀ a m₁ m₁', x m = .ok a m₁ → Ahead stop m₁ m₁' → Paired stop (f a m₁) (g a m₁')) :
    Paired stop ((x >>= f) m) ((y >>= g) m') := by
  show Paired stop (EStateM.bind x f m) (EStateM.bind y g m')
  unfold EStateM.bind
  cases hr : x m with
  | ok a m₁ =>
    rw [hr] at hxy
    obtain ⟨m₁', hr', hm₁⟩ := hxy
    rw [hr']
    exact hf a m₁ m₁' hr hm₁
  | error e m₁ =>
    rw [hr] at hxy
    rcases hxy with ⟨m₁', hr', hm₁⟩ | ⟨hstop, honward⟩
    · rw [hr']
      exact Or.inl ⟨m₁', rfl, hm₁⟩
    · -- the longer run goes on, and whatever it does adds to what was done
      refine Or.inr ⟨hstop, ?_⟩
      cases hr' : y m' with
      | ok b m₁' =>
        rw [hr'] at honward
        exact honward.trans (hright b m₁' hr')
      | error e' m₁' =>
        rw [hr'] at honward
        exact honward

/-- A sequence is a beginning of another if its first part and what follows are. -/
theorem bind {x y : Run α} {f g : α → Run β} (hx : Begins stop slot x y)
    (hf : ∀ a, Begins stop slot (f a) (g a)) : Begins stop slot (x >>= f) (y >>= g) where
  left := Grows.kept.keeps_bind hx.left fun a => (hf a).left
  right := Grows.kept.keeps_bind hx.right fun a => (hf a).right
  paired m m' hm := paired_bind (hx.paired m m' hm) (fun a m₁ _ => ((hf a).right m₁).onward)
    fun a m₁ m₁' _ hm₁ => (hf a).paired m₁ m₁' hm₁

/-- With fewer questions left, a question is answered the same or stops the shorter run. -/
theorem check : Begins stop slot Run.check Run.check := by
  refine ⟨Grows.kept.check slot, Grows.kept.check slot, ?_⟩
  rintro m m' ⟨checks, rfl, hlasts⟩
  have hstart : Onward m (m.withChecks checks) := .of_eq rfl rfl
  have honward := hstart.trans (Grows.kept.check slot (m.withChecks checks)).onward
  rcases hlasts with rfl | ⟨hstop, hmore⟩
  · -- the machines are the same
    have hsame : m.withChecks m.checksLeft = m := rfl
    rw [hsame]
    cases Run.check m with
    | ok a m₁ => exact ⟨m₁, rfl, m₁.checksLeft, rfl, Or.inl rfl⟩
    | error e m₁ => exact Or.inl ⟨m₁, rfl, m₁.checksLeft, rfl, Or.inl rfl⟩
  · unfold Run.check
    cases hm : m.checksLeft with
    | none =>
      have hnone : checks = none := by
        cases checks with
        | none => rfl
        | some k' =>
          obtain ⟨k, hk, -⟩ := hmore k' rfl
          rw [hm] at hk
          exact absurd hk (by simp)
      rw [hnone]
      exact ⟨_, rfl, none, rfl, Or.inl hm.symm⟩
    | some n =>
      cases n with
      -- the shorter run is cancelled here
      | zero => exact Or.inr ⟨hstop, honward⟩
      -- both runs have a question left, and the longer one still has as many more
      | succ n =>
        cases checks with
        | none => exact ⟨_, rfl, none, rfl, Or.inr ⟨hstop, fun _ h => absurd h (by simp)⟩⟩
        | some k' =>
          obtain ⟨k, hk, hle⟩ := hmore k' rfl
          rw [hm] at hk
          injection hk with hk
          obtain ⟨j, rfl⟩ : ∃ j, k' = j + 1 := ⟨k' - 1, by omega⟩
          refine ⟨_, rfl, some j, rfl, Or.inr ⟨hstop, ?_⟩⟩
          intro i hi
          injection hi with hi
          exact ⟨n, rfl, by omega⟩

/-- To begin like another computation is a congruence. -/
theorem congruence (stop : Halt → Prop) : Eval.Congruence (Begins stop) where
  pure _ a := pure a
  throw _ h := throw h
  bind _ _ _ _ _ := bind
  check _ := check
  log slot entry := of_blind (.log entry) (Grows.kept.log slot entry)
  freshId slot := of_blind .freshId (Grows.kept.freshId slot)
  write slot piece := of_blind (.write piece) (Grows.kept.write slot piece)
  readLine slot := of_blind .readLine (Grows.kept.readLine slot)
  lookup slot name :=
    of_blind (.lookup slot name) (Grows.kept.keeps_of_final_eq (Run.final_lookup slot name))
  declare slot name v := of_blind (.declare slot name v) (Grows.kept.declare slot name v)
  assign slot name v := of_blind (.assign slot name v) (Grows.kept.assign slot name v)

/-! ## Calls -/

/-- A body that is run in a new frame begins like another one. The frame is left on every way out,
so the shorter run still stops for the reason for which its body stopped. -/
theorem paired_inNewFrame {body body' : Nat → Run α} {m m' : Machine} (hpos : 0 < m.scopes.count)
    (hm : Ahead stop m m')
    (hbody : Begins stop m.scopes.count (body m.scopes.count) (body' m.scopes.count)) :
    Paired stop (Run.inNewFrame slot body m) (Run.inNewFrame slot body' m') := by
  obtain ⟨checks, rfl, hlasts⟩ := hm
  have hentered : Ahead stop (Run.entered m slot) (Run.entered (m.withChecks checks) slot) :=
    ⟨checks, rfl, hlasts⟩
  have hpair := hbody.paired _ _ hentered
  rw [Run.inNewFrame_eq hpos fun m₁ => (hbody.left m₁).restores,
    Run.inNewFrame_eq (m := m.withChecks checks) hpos fun m₁ => (hbody.right m₁).restores]
  cases hr : body m.scopes.count (Run.entered m slot) with
  | ok v m₁ =>
    rw [hr] at hpair
    obtain ⟨m₁', hr', checks₁, rfl, hlasts₁⟩ := hpair
    change body' (m.withChecks checks).scopes.count _ = _ at hr'
    rw [hr']
    exact ⟨_, rfl, checks₁, rfl, hlasts₁⟩
  | error e m₁ =>
    rw [hr] at hpair
    rcases hpair with ⟨m₁', hr', checks₁, rfl, hlasts₁⟩ | ⟨hstop, honward⟩
    · change body' (m.withChecks checks).scopes.count _ = _ at hr'
      rw [hr']
      exact Or.inl ⟨_, rfl, checks₁, rfl, hlasts₁⟩
    · -- leaving the frame writes and reads nothing on either side
      refine Or.inr ⟨hstop, ?_⟩
      change Onward m₁ (Run.machineOf (body' (m.withChecks checks).scopes.count _)) at honward
      cases hr' : body' (m.withChecks checks).scopes.count
          (Run.entered (m.withChecks checks) slot) with
      | ok v m₁' =>
        rw [hr'] at honward
        exact ⟨honward.output, honward.input⟩
      | error e' m₁' =>
        rw [hr'] at honward
        exact ⟨honward.output, honward.input⟩

section Calls

variable {maxDepth maxDepth' : Int} (hdepth : maxDepth ≤ maxDepth')
  (hdeep : maxDepth' = maxDepth ∨ ∀ name pos, stop (.fault (.tooDeep name maxDepth pos)))
  {ev ev' : Evaluator} (hev : ∀ slot node, Begins stop slot (ev slot node) (ev' slot node))
include hdepth hdeep hev

/-- Where a frame is live, entering a function begins like entering it with a greater depth. -/
theorem paired_enter {m m' : Machine} (hpos : 0 < m.scopes.count) (hm : Ahead stop m m')
    (tok : Token) (name : String) (f : Function) (args : List Value) :
    Paired stop (Eval.enter maxDepth ev slot tok name f args m)
      (Eval.enter maxDepth' ev' slot tok name f args m') := by
  have hright : ∀ slot node, Run.Keeps (Grows slot) (ev' slot node) :=
    fun slot node => (hev slot node).right
  obtain ⟨checks, rfl, hlasts⟩ := hm
  have hpos' : 0 < (m.withChecks checks).scopes.count := hpos
  have hgrows : Grows slot (m.withChecks checks)
      ((Eval.enter maxDepth' ev' slot tok name f args).final (m.withChecks checks)) :=
    Grows.kept.final_enter hright hpos' tok name f args
  change Paired stop
    ((if maxDepth ≤ (m.depth : Int) then Run.fail (.tooDeep name maxDepth tok.pos)
      else Run.inNewFrame slot _) m)
    ((if maxDepth' ≤ (m.depth : Int) then Run.fail (.tooDeep name maxDepth' tok.pos)
      else Run.inNewFrame slot _) (m.withChecks checks))
  by_cases hlimit : maxDepth ≤ (m.depth : Int)
  · rw [if_pos hlimit]
    rcases hdeep with rfl | hstop
    · rw [if_pos hlimit]
      exact Or.inl ⟨_, rfl, checks, rfl, hlasts⟩
    · refine Or.inr ⟨hstop name tok.pos, ?_⟩
      have hstart : Onward m (m.withChecks checks) := .of_eq rfl rfl
      exact hstart.trans hgrows.onward
  · rw [if_neg hlimit, if_neg (by omega)]
    apply paired_inNewFrame hpos ⟨checks, rfl, hlasts⟩
    exact (congruence stop).callBody hev name f args m.scopes.count

/-- Arguments are evaluated where a frame is live, and leave it so; then the function is entered. -/
theorem paired_function {m m' : Machine} (hpos : 0 < m.scopes.count) (hm : Ahead stop m m')
    (tok : Token) (name : String) (f : Function) (args : List Node) :
    Paired stop
      ((Eval.runArgs (ev slot) args >>= Eval.enter maxDepth ev slot tok name f) m)
      ((Eval.runArgs (ev' slot) args >>= Eval.enter maxDepth' ev' slot tok name f) m') := by
  have hargs := (congruence stop).runArgs (hev slot) args
  have hright : ∀ slot node, Run.Keeps (Grows slot) (ev' slot node) :=
    fun slot node => (hev slot node).right
  have hpos' : 0 < m'.scopes.count := by
    obtain ⟨checks, rfl, -⟩ := hm
    exact hpos
  apply paired_bind (hargs.paired m m' hm)
  · intro vs m₁ hvs
    have hrestored := (hargs.right m').restores
    simp only [Run.final, hvs] at hrestored
    have hpos₁ : 0 < m₁.scopes.count := by rw [hrestored.count]; exact hpos'
    exact (Grows.kept.final_enter hright hpos₁ tok name f vs).onward
  · intro vs m₁ m₁' hvs hm₁
    have hrestored := (hargs.left m).restores
    simp only [Run.final, hvs] at hrestored
    have hpos₁ : 0 < m₁.scopes.count := by rw [hrestored.count]; exact hpos
    exact paired_enter hdepth hdeep hev hpos₁ hm₁ tok name f vs

/-- A call is a beginning of the same call with more fuel, more depth or more questions. -/
theorem call (tok : Token) (name : String) (args : List Node) :
    Begins stop slot (Eval.call maxDepth ev slot tok name args)
      (Eval.call maxDepth' ev' slot tok name args) := by
  have hright : Run.Keeps (Grows slot) (Eval.call maxDepth' ev' slot tok name args) :=
    Grows.kept.keeps_call (fun slot node => (hev slot node).right) tok name args
  refine ⟨Grows.kept.keeps_call (fun slot node => (hev slot node).left) tok name args, hright, ?_⟩
  intro m m' hm
  have hasked : Begins stop slot Run.check Run.check := check
  have hcheck := hasked.paired m m' hm
  cases hc : Run.check m with
  -- the question cancels the shorter run; the longer one is asked on the same machine and goes on
  | error e m₁ =>
    have hsame := Run.check_error hc
    subst hsame
    show Paired stop (EStateM.bind Run.check _ m₁) (Eval.call maxDepth' ev' slot tok name args m')
    unfold EStateM.bind
    rw [hc] at hcheck ⊢
    rcases hcheck with ⟨m₁', hc', hm₁⟩ | ⟨hstop, -⟩
    · refine Or.inl ⟨m₁', ?_, hm₁⟩
      show EStateM.bind Run.check _ m' = _
      unfold EStateM.bind
      rw [hc']
    · obtain ⟨checks, rfl, -⟩ := hm
      have hstart : Onward m₁ (m₁.withChecks checks) := .of_eq rfl rfl
      exact Or.inr ⟨hstop, hstart.trans (hright (m₁.withChecks checks)).onward⟩
  | ok u m₁ =>
    rw [hc] at hcheck
    obtain ⟨m₁', hc', checks, rfl, hlasts⟩ := hcheck
    show Paired stop (EStateM.bind Run.check _ m) (EStateM.bind Run.check _ m')
    unfold EStateM.bind
    rw [hc, hc']
    show Paired stop (EStateM.bind (Run.lookup slot name) _ m₁)
      (EStateM.bind (Run.lookup slot name) _ (m₁.withChecks checks))
    have hblind := Run.Blind.lookup slot name m₁ checks
    unfold EStateM.bind
    cases hl : Run.lookup slot name m₁ with
    | error e m₂ =>
      rw [hl] at hblind
      rw [hblind]
      have hsame := Run.final_lookup slot name m₁
      simp only [Run.final, hl] at hsame
      rw [hsame]
      exact Or.inl ⟨_, rfl, checks, rfl, hlasts⟩
    | ok callee m₂ =>
      -- where a name is found there is a frame, so that the frame of the call can be left
      obtain ⟨rfl, hpos⟩ := Run.lookup_ok hl
      rw [hl] at hblind
      rw [hblind]
      have hm₂ : Ahead stop m₂ (m₂.withChecks checks) := ⟨checks, rfl, hlasts⟩
      cases callee with
      | builtin id b =>
        have C := congruence stop
        exact (bind (C.runArgs (hev slot) args) (C.builtin b)).paired _ _ hm₂
      | function f =>
        dsimp only
        split
        · exact (throw _ : Begins stop slot _ _).paired _ _ hm₂
        · exact paired_function hdepth hdeep hev hpos hm₂ tok name f args
      | _ => exact (throw _ : Begins stop slot _ _).paired _ _ hm₂

end Calls

/-- Evaluation with less fuel and a smaller depth is a beginning of evaluation with more, as long as
the reasons for which it may be stopped early are among those that are looked for. -/
theorem eval {maxDepth maxDepth' : Int} (hdepth : maxDepth ≤ maxDepth')
    (hdeep : maxDepth' = maxDepth ∨ ∀ name pos, stop (.fault (.tooDeep name maxDepth pos)))
    {fuel fuel' : Nat} (hle : fuel ≤ fuel') (hfuel : fuel' = fuel ∨ stop .outOfFuel)
    (slot : Nat) (node : Node) :
    Begins stop slot (Offside.eval maxDepth fuel slot node)
      (Offside.eval maxDepth' fuel' slot node) := by
  induction fuel generalizing fuel' slot node with
  | zero =>
    rcases hfuel with rfl | hstop
    · exact throw _
    · exact of_stop hstop (Grows.kept.eval maxDepth' fuel' slot node)
  | succ fuel ih =>
    obtain ⟨rest, rfl⟩ : ∃ rest, fuel' = rest + 1 := ⟨fuel' - 1, by omega⟩
    have hless : rest = fuel ∨ stop .outOfFuel := by
      rcases hfuel with h | h
      · exact Or.inl (by omega)
      · exact Or.inr h
    have hev : ∀ slot node, Begins stop slot (Offside.eval maxDepth fuel slot node)
        (Offside.eval maxDepth' rest slot node) := fun slot node => ih (by omega) hless slot node
    exact (congruence stop).step hev node (call hdepth hdeep hev)

/-- A program's run is a beginning of its run with more fuel and more depth, if what is short may
stop a run. -/
theorem runProgram {options options' : Options} (hecho : options'.echo = options.echo)
    (hdepth : options.maxDepth ≤ options'.maxDepth)
    (hdeep : options'.maxDepth = options.maxDepth ∨
      ∀ name pos, stop (.fault (.tooDeep name options.maxDepth pos)))
    {fuel fuel' : Nat} (hle : fuel ≤ fuel') (hfuel : fuel' = fuel ∨ stop .outOfFuel)
    (program : List Node) :
    Begins stop 0 (Session.runProgram options fuel program)
      (Session.runProgram options' fuel' program) := by
  unfold Session.runProgram
  rw [hecho]
  have C := congruence stop
  apply bind (C.log 0 _)
  intro _
  exact C.runStatements (eval hdepth hdeep hle hfuel 0) options.echo .nil program

end Begins

/-! ## Sessions -/

namespace Session

/-- The run of a tree comes to an end with the given outcome: any fuel from some amount on gives
it. -/
def RunsTo (s : Session) (checks : Option Nat) (tree : Node)
    (outcome : Except Halt Value × Session) : Prop :=
  outcome.1 ≠ .error .outOfFuel ∧
    ∃ enough, ∀ fuel, enough ≤ fuel → s.runTree fuel checks tree = outcome

/-- The session with another number of questions left. -/
def withChecks (s : Session) (checks : Option Nat) : Session :=
  { s with machine := s.machine.withChecks checks }

/-- With more fuel and more questions, the run of a tree comes to the same or goes on where it was
stopped. -/
theorem runTree_begins (stop : Halt → Prop) (s : Session) (tree : Node) {fuel fuel' : Nat}
    (hle : fuel ≤ fuel') (hfuel : fuel' = fuel ∨ stop .outOfFuel) {checks checks' : Option Nat}
    (hlasts : Lasts stop checks checks') :
    (∃ left, s.runTree fuel' checks' tree =
        ((s.runTree fuel checks tree).1, (s.runTree fuel checks tree).2.withChecks left) ∧
      Lasts stop (s.runTree fuel checks tree).2.machine.checksLeft left) ∨
    ∃ h, stop h ∧ (s.runTree fuel checks tree).1 = .error h ∧
      Onward (s.runTree fuel checks tree).2.machine (s.runTree fuel' checks' tree).2.machine := by
  have hbegins : Begins stop 0 (runProgram s.options fuel (statementsOf tree))
      (runProgram s.options fuel' (statementsOf tree)) :=
    Begins.runProgram rfl (Int.le_refl _) (Or.inl rfl) hle hfuel (statementsOf tree)
  have hpair := hbegins.paired (s.machine.withChecks checks) (s.machine.withChecks checks')
    ⟨checks', rfl, hlasts⟩
  unfold runTree
  dsimp only
  change Paired stop (runProgram s.options fuel (statementsOf tree) { s.machine with
    checksLeft := checks }) (runProgram s.options fuel' (statementsOf tree) { s.machine with
    checksLeft := checks' }) at hpair
  cases hr : runProgram s.options fuel (statementsOf tree)
      { s.machine with checksLeft := checks } with
  | ok v m =>
    rw [hr] at hpair
    obtain ⟨m', hr', left, rfl, hleft⟩ := hpair
    rw [hr']
    exact Or.inl ⟨left, rfl, hleft⟩
  | error e m =>
    rw [hr] at hpair
    rcases hpair with ⟨m', hr', left, rfl, hleft⟩ | ⟨hstop, honward⟩
    · rw [hr']
      exact Or.inl ⟨left, rfl, hleft⟩
    · refine Or.inr ⟨e, hstop, rfl, ?_⟩
      cases hr' : runProgram s.options fuel' (statementsOf tree)
          { s.machine with checksLeft := checks' } with
      | ok v m' =>
        rw [hr'] at honward
        exact honward
      | error e' m' =>
        rw [hr'] at honward
        exact honward

/-- More fuel changes nothing where there was enough of it. -/
theorem runTree_of_le (s : Session) (checks : Option Nat) (tree : Node) {fuel fuel' : Nat}
    (hle : fuel ≤ fuel') (h : (s.runTree fuel checks tree).1 ≠ .error .outOfFuel) :
    s.runTree fuel' checks tree = s.runTree fuel checks tree := by
  have hlasts : Lasts (· = .outOfFuel) checks checks := Or.inl rfl
  rcases runTree_begins (· = .outOfFuel) s tree hle (Or.inr rfl) hlasts with
    ⟨left, heq, hleft⟩ | ⟨e, rfl, herror, -⟩
  · rcases hleft with rfl | ⟨hstop, -⟩
    · exact heq
    · exact absurd hstop (by simp)
  · exact absurd herror h

/-- A run that did not run out of fuel has come to its end. -/
theorem runsTo_of_fuel {s : Session} {checks : Option Nat} {tree : Node} {fuel : Nat}
    {outcome : Except Halt Value × Session} (hrun : s.runTree fuel checks tree = outcome)
    (h : outcome.1 ≠ .error .outOfFuel) : s.RunsTo checks tree outcome := by
  subst hrun
  exact ⟨h, fuel, fun fuel' hle => s.runTree_of_le checks tree hle h⟩

end Session

/-- Cancelling a run only cuts it short. Let a run be cancelled after some questions, and let
another one, from the same session, be cancelled after at least as many, or never. If the first run
comes to its end without being cancelled, the other one comes to the same end, with a session that
is the same in all but the questions left. And in any case all that the first run wrote is a
beginning of what the other one writes, and the input that the other one leaves is an end of what
the first one left, whether the other one comes to an end or not. -/
theorem cancellation_only_cuts_short (s : Session) (tree : Node) (checks : Nat)
    (later : Option Nat) (hlater : ∀ k, later = some k → checks ≤ k)
    (outcome : Except Halt Value × Session) (hrun : s.RunsTo (some checks) tree outcome) :
    (outcome.1 ≠ .error .cancelled →
      ∃ left, s.RunsTo later tree (outcome.1, outcome.2.withChecks left)) ∧
    ∃ enough, ∀ fuel, enough ≤ fuel →
      outcome.2.machine.written <+: (s.runTree fuel later tree).2.machine.written ∧
      (s.runTree fuel later tree).2.machine.input <:+ outcome.2.machine.input := by
  obtain ⟨hfuel, enough, henough⟩ := hrun
  have hlasts : Lasts (· = .cancelled) (some checks) later :=
    Or.inr ⟨rfl, fun k hk => ⟨checks, rfl, hlater k hk⟩⟩
  have hbegins : ∀ fuel, enough ≤ fuel →
      (∃ left, s.runTree fuel later tree = (outcome.1, outcome.2.withChecks left)) ∨
      outcome.1 = .error .cancelled ∧
        Onward outcome.2.machine (s.runTree fuel later tree).2.machine := by
    intro fuel hle
    have h := Session.runTree_begins _ s tree (Nat.le_refl fuel) (Or.inl rfl) hlasts
    rw [henough fuel hle] at h
    rcases h with ⟨left, heq, -⟩ | ⟨e, rfl, herror, honward⟩
    · exact Or.inl ⟨left, heq⟩
    · exact Or.inr ⟨herror, honward⟩
  constructor
  · intro hended
    rcases hbegins enough (Nat.le_refl enough) with ⟨left, heq⟩ | ⟨herror, -⟩
    · exact ⟨left, Session.runsTo_of_fuel heq hfuel⟩
    · exact absurd herror hended
  · use enough
    intro fuel hle
    have honward : Onward outcome.2.machine (s.runTree fuel later tree).2.machine := by
      rcases hbegins fuel hle with ⟨left, heq⟩ | ⟨-, honward⟩
      · rw [heq]
        exact .of_eq rfl rfl
      · exact honward
    exact ⟨honward.written_prefix, honward.input⟩

/-- A loop that prints without end, cancelled at its fourth question, has printed once; what it has
printed is a beginning of what the loop prints when nobody cancels it. -/
theorem cancellation_only_cuts_short_endless :
    let s := Session.start ⟨false, 10⟩ [] false none
    let tree := Node.block .origin [.loop .origin (.boolean .origin true) .origin
      [.call .origin "print" [.string .origin [97]]]]
    ∃ outcome, s.RunsTo (some 3) tree outcome ∧ outcome.1 = .error .cancelled ∧
      outcome.2.machine.written = [97, 10] ∧
      ∃ enough, ∀ fuel, enough ≤ fuel →
        outcome.2.machine.written <+: (s.runTree fuel none tree).2.machine.written ∧
        (s.runTree fuel none tree).2.machine.input <:+ outcome.2.machine.input := by
  intro s tree
  have hcancelled : (s.runTree 9 (some 3) tree).1 = .error .cancelled := by rfl
  have hrun : s.RunsTo (some 3) tree (s.runTree 9 (some 3) tree) :=
    Session.runsTo_of_fuel rfl (by rw [hcancelled]; simp)
  refine ⟨_, hrun, hcancelled, by decide +kernel, ?_⟩
  exact (cancellation_only_cuts_short s tree 3 none (by simp) _ hrun).2

end Offside
