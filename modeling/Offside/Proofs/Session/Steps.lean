import Offside.Session

/-!
# Sessions step by step

A step gives a session a source to read and run, or a tree to run that was put together by hand,
with the fuel for it and the number of questions after which it is cancelled. The session after
several steps is the one that the last of them leaves, however each of them ended.
-/

set_option autoImplicit false

namespace Offside

namespace Session

/-- What a session is given to do. -/
inductive Task where
  /-- A source that is read and run. -/
  | source (text : Text)
  /-- A tree that is run. -/
  | tree (node : Node)

/-- One step of a session. -/
structure Step where
  /-- What is to be done. -/
  task : Task
  /-- The fuel for it. -/
  fuel : Nat
  /-- How many questions find the step not cancelled, if it is going to be. -/
  checks : Option Nat

/-- What comes of a step, and the session after it. -/
def perform (s : Session) (step : Step) : Except Halt Value × Session :=
  match step.task with
  | .source text => s.runText step.fuel step.checks text
  | .tree node => s.runTree step.fuel step.checks node

/-- The session after several steps. -/
def after (s : Session) (steps : List Step) : Session :=
  steps.foldl (fun s step => (s.perform step).2) s

/-- What holds of a session and is carried over by every step holds after any steps. -/
theorem after_induction {P : Session → Prop} {s : Session} (hs : P s)
    (hstep : ∀ s step, P s → P (s.perform step).2) (steps : List Step) : P (s.after steps) := by
  induction steps generalizing s with
  | nil => exact hs
  | cons step rest ih => exact ih (hstep s step hs)

/-- The run of a tree leaves the options of its session as they are. -/
theorem options_runTree (s : Session) (fuel : Nat) (checks : Option Nat) (tree : Node) :
    (s.runTree fuel checks tree).2.options = s.options := by
  unfold runTree
  dsimp only
  split <;> rfl

/-- A step leaves the options of its session as they are. -/
theorem options_perform (s : Session) (step : Step) : (s.perform step).2.options = s.options := by
  unfold perform
  cases step.task with
  | tree node => exact s.options_runTree step.fuel step.checks node
  | source text =>
    unfold runText
    dsimp only
    cases (Parse.ofText text).outcome with
    | ok tree => exact options_runTree _ step.fuel step.checks tree
    | error e => rfl

/-- The options of a session stay as they are. -/
theorem options_after (s : Session) (steps : List Step) : (s.after steps).options = s.options := by
  apply after_induction (P := fun s' => s'.options = s.options) rfl
  intro s' step hs'
  rw [options_perform, hs']

end Session

end Offside
